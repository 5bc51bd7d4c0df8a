import TableImport.Json.Decode

/-! Monthly prices in minor units, one for each month and kind. -/
namespace TableImport

inductive PriceStatus where
  | confirmed | provisional
  deriving DecidableEq, Repr

/-- A price in minor units for one month and one kind. -/
structure PriceRecord where
  year : Int32
  month : UInt32
  kind : String
  price : Int64
  status : PriceStatus
  deriving DecidableEq, Repr

/-- The month that an import's prices are booked for. -/
structure PricePeriod where
  year : Int32
  month : UInt32
  deriving DecidableEq, Repr

/-- A period; its month is one of twelve. -/
def PricePeriod.of? (year : Int32) (month : UInt32) : Option PricePeriod :=
  if 1 ≤ month ∧ month ≤ 12 then some ⟨year, month⟩ else none

namespace PriceRecord

/-- A confirmed price from an amount in major units, to the nearest minor unit. -/
def ofMajor (period : PricePeriod) (kind : String) (amount : Float) : PriceRecord :=
  ⟨period.year, period.month, kind, Binary64.toInt64 (Binary64.round (amount * 100)), .confirmed⟩

def majorUnits (r : PriceRecord) : Float := Binary64.ofInt64 r.price / 100

/-- Both prices are for the same month and kind. -/
def SameSlot (a b : PriceRecord) : Prop :=
  a.year = b.year ∧ a.month = b.month ∧ a.kind = b.kind

instance (a b : PriceRecord) : Decidable (SameSlot a b) := by unfold SameSlot; infer_instance

/-- Puts a price in the place of the first one for its month and kind, or at the end. -/
def put (r : PriceRecord) : List PriceRecord → List PriceRecord
  | [] => [r]
  | s :: rest => if s.SameSlot r then r :: rest else s :: put r rest

/-- The existing prices with the incoming ones put in one after another. -/
def merge (existing incoming : List PriceRecord) : List PriceRecord :=
  incoming.foldl (fun prices r => put r prices) existing

@[simp] theorem merge_nil (existing : List PriceRecord) : merge existing [] = existing := rfl

@[simp] theorem merge_cons (existing : List PriceRecord) (r : PriceRecord)
    (rest : List PriceRecord) : merge existing (r :: rest) = merge (put r existing) rest := rfl

end PriceRecord
end TableImport
