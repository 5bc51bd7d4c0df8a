import TableImport.Assoc
import TableImport.Number.Binary64

/-! JSON values. -/
namespace TableImport

/-- A JSON value; whole numbers and doubles are kept apart. -/
inductive Json where
  | null
  | bool (b : Bool)
  | int (i : Int)
  | float (x : Float)
  | string (s : String)
  | array (items : List Json)
  | object (fields : List (String × Json))

namespace Json

instance : Inhabited Json := ⟨null⟩

/-- A number as JSON; null stands for one that is not finite. -/
def ofFloat (x : Float) : Json := if x.isFinite then float x else null

def object? : Json → Option (Assoc Json)
  | object fields => some fields
  | _ => none

def isObject (v : Json) : Bool := v.object?.isSome

def string? : Json → Option String
  | string s => some s
  | _ => none

/-- A number of either kind as the nearest double. -/
def float? : Json → Option Float
  | int i => some (Binary64.ofInt i)
  | float x => some x
  | _ => none

def fitsInt64 (i : Int) : Bool := decide (-2 ^ 63 ≤ i ∧ i < 2 ^ 63)

/-- A whole number of the signed 64-bit range. -/
def int64? : Json → Option Int
  | int i => if fitsInt64 i then some i else none
  | _ => none

/-- A whole number of either kind; doubles only below `10 ^ 15`, where their digits are exact. -/
def wholeNumber? (v : Json) : Option Int :=
  match v.int64? with
  | some i => some i
  | none => v.float?.bind fun x =>
    if Binary64.isWhole x && x.abs < 1e15 then some (Binary64.toInt64 x).toInt else none

end Json
end TableImport
