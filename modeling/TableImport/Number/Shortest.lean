import TableImport.Number.Binary64

/-! The fewest decimal digits that read back to a double. -/
namespace TableImport

/-- Which of two decimals at the same distance from the double is taken. -/
inductive Tie where
  | up | toEven
  deriving DecidableEq, Repr

/-- The decimal `digits * 10 ^ exponent`. -/
structure Scaled where
  digits : Nat
  exponent : Int
  deriving DecidableEq, Repr

namespace Scaled

def ratio : Scaled → Nat × Nat
  | ⟨d, .ofNat k⟩ => (d * 10 ^ k, 1)
  | ⟨d, .negSucc k⟩ => (d, 10 ^ (k + 1))

def toFloat (negative : Bool) (s : Scaled) : Float :=
  Binary64.nearest negative s.ratio.1 s.ratio.2

def readsBack (x : Float) (s : Scaled) : Bool :=
  (s.toFloat (Binary64.isNegative x)).toBits == x.toBits

/-- The number of digits before the decimal point, not positive below one tenth. -/
def pointOf (x : Float) : Int :=
  (Nat.toDigits 10 (Binary64.units x * 10 ^ 340 / Binary64.unitsOfOne)).length - 340

/-- A double's size as a multiple of `10 ^ e`: numerator and denominator. -/
def measured (x : Float) : Int → Nat × Nat
  | .ofNat k => (Binary64.units x, Binary64.unitsOfOne * 10 ^ k)
  | .negSucc k => (Binary64.units x * 10 ^ (k + 1), Binary64.unitsOfOne)

/-- The nearest multiple of `10 ^ e` that reads back, if one of the two neighbours does. -/
def onGrid? (tie : Tie) (x : Float) (e : Int) : Option Scaled :=
  let (n, d) := measured x e
  let lo : Scaled := ⟨n / d, e⟩
  let hi : Scaled := ⟨n / d + 1, e⟩
  let r := n % d
  match lo.readsBack x, hi.readsBack x with
  | true, true =>
    if 2 * r < d then some lo
    else if d < 2 * r then some hi
    else match tie with
      | .up => some hi
      | .toEven => if (n / d) % 2 = 0 then some lo else some hi
  | true, false => some lo
  | false, true => some hi
  | false, false => none

def exact (x : Float) : Scaled := ⟨Binary64.units x * 5 ^ 1074, -1074⟩

/-- The fewest digits, at most seventeen, that read back to the double's size, and of these
the nearest to it. The first grid is the power of ten above the double. -/
def shortest (tie : Tie) (x : Float) : Scaled :=
  let point := pointOf x
  ((List.range 18).findSome? fun n : Nat => onGrid? tie x (point - n)).getD (exact x)

theorem readsBack_onGrid {tie : Tie} {x : Float} {e : Int} {s : Scaled}
    (h : onGrid? tie x e = some s) : s.readsBack x = true := by
  unfold onGrid? at h
  grind

end Scaled
end TableImport
