import TableImport.Price.Basic

/-! Prices and periods as JSON. -/
namespace TableImport

def PriceStatus.name : PriceStatus → String
  | confirmed => "confirmed"
  | provisional => "provisional"

def PriceStatus.decode : Decoder PriceStatus :=
  Decoder.oneOf [("confirmed", .confirmed), ("provisional", .provisional)]

namespace PriceRecord

def fields (r : PriceRecord) : Assoc Json :=
  [("month", .int r.month.toNat), ("price", .int r.price.toInt), ("status", .string r.status.name),
    ("type", .string r.kind), ("year", .int r.year.toInt)]

def toJson (r : PriceRecord) : Json := .object r.fields

/-- A number of either kind, rounded, below `9 * 10 ^ 15` and within the bounds. -/
def roundedWithin (lo hi : Int) (v : Json) : Except DecodeError Int := do
  let x ← Decoder.float v
  if ¬x.isFinite ∨ 9e15 ≤ x.abs then .error (.unusableNumber x)
  else
    let i := (Binary64.toInt64 (Binary64.round x)).toInt
    if lo ≤ i ∧ i ≤ hi then .ok i else .error (.outOfRange x)

def decodeYear (v : Json) : Except DecodeError Int32 :=
  (roundedWithin (-2 ^ 31) (2 ^ 31 - 1) v).map Int32.ofInt

def decodeMonth (v : Json) : Except DecodeError UInt32 :=
  (roundedWithin 0 (2 ^ 32 - 1) v).map fun i => UInt32.ofNat i.toNat

def decodePrice (v : Json) : Except DecodeError Int64 :=
  (roundedWithin (-2 ^ 63) (2 ^ 63 - 1) v).map Int64.ofInt

/-- A stored price; its status is confirmed where none is given. -/
def decode : Decoder PriceRecord :=
  Decoder.record
    [("year", Decoder.check decodeYear), ("month", Decoder.check decodeMonth),
      ("type", Decoder.check Decoder.text), ("price", Decoder.check decodePrice),
      ("status", Decoder.check PriceStatus.decode)]
    fun given => do
      let year ← Decoder.required decodeYear (given "year")
      let month ← Decoder.required decodeMonth (given "month")
      let kind ← Decoder.required Decoder.text (given "type")
      let price ← Decoder.required decodePrice (given "price")
      let status ← Decoder.withDefault .confirmed PriceStatus.decode (given "status")
      .ok ⟨year, month, kind, price, status⟩

end PriceRecord

/-- A stored period; its month is not checked. -/
def PricePeriod.decode : Decoder PricePeriod :=
  Decoder.record [("year", Decoder.check Decoder.int32), ("month", Decoder.check Decoder.uint32)]
    fun given => do
      let year ← Decoder.required Decoder.int32 (given "year")
      let month ← Decoder.required Decoder.uint32 (given "month")
      .ok ⟨year, month⟩

end TableImport
