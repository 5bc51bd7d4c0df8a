import TableImport.Json.Basic
import TableImport.Number.Decimal

/-! Numbers of JSON texts. A significand holds as many leading digits as fit into 64 bits; a
power of ten then scales its nearest double. -/
namespace TableImport.Json

/-- The parts of a number: its digits before and after the point, and its exponent's. -/
structure Parts where
  negative : Bool
  whole : List Char
  fraction : List Char
  exponent : Option (Bool × List Char)

/-- The significand grown by digits as long as it stays below 2⁶⁴, with the digits left over. -/
def growSignificand : Nat → List Char → Nat × List Char
  | n, [] => (n, [])
  | n, d :: ds =>
    let m := 10 * n + (d.toNat - '0'.toNat)
    if m < 2 ^ 64 then growSignificand m ds else (n, d :: ds)

def tenTo (k : Nat) : Float := Binary64.nearest false (10 ^ k) 1

/-- A double divided by `10 ^ k` in steps of at most 308; two whole steps leave nothing of a
significand. -/
def divideByTenTo (x : Float) (k : Nat) : Float :=
  if k ≤ 308 then x / tenTo k
  else if k ≤ 616 then x / tenTo 308 / tenTo (k - 308)
  else 0

/-- A significand's double times a power of ten; nothing beyond the largest double. -/
def scaleByTen? (x : Float) : Int → Option Float
  | .ofNat k =>
    if k ≤ 308 then
      let y := x * tenTo k
      if y.isInf then none else some y
    else if x == 0 then some x
    else none
  | .negSucc k => some (if x == 0 then x else divideByTenTo x (k + 1))

def signed (negative : Bool) (x : Float) : Float := if negative then -x else x

/-- The exponent's effect on a significand at a power of ten. An exponent beyond 31 bits is
either out of range or leaves zero. -/
def applyExponent? (significand : Nat) (power : Int) : Option (Bool × List Char) → Option Float
  | none => scaleByTen? (Binary64.ofInt significand) power
  | some (below, ds) =>
    let e := Nat.ofDigitChars 10 ds 0
    if e < 2 ^ 31 then
      scaleByTen? (Binary64.ofInt significand) (if below then power - e else power + e)
    else if significand = 0 ∨ below then some 0
    else none

/-- The number of the parts: a whole one where no point, exponent or lost digit forbids it. -/
def ofParts? (p : Parts) : Option Json :=
  let (n, lost) := growSignificand 0 p.whole
  if p.fraction = [] ∧ p.exponent = none ∧ lost = [] ∧ (p.negative → 0 < n ∧ n ≤ 2 ^ 63) then
    some (int (if p.negative then -n else n))
  else
    let (m, rest) := growSignificand n p.fraction
    let power : Int := lost.length - (p.fraction.length - rest.length : Nat)
    (applyExponent? m power p.exponent).map fun x => float (signed p.negative x)

end TableImport.Json
