/-! Doubles as whole multiples of 2⁻¹⁰⁷⁴: the double nearest to a quotient, whole parts,
and rounding to decimal places. -/
namespace TableImport.Binary64

-- `2 ^ 63` and `10 ^ k` are the core powers here, whatever other powers are in scope.
attribute [instance (2000), default_instance 20000] instPowNat

/-- One, counted in units of 2⁻¹⁰⁷⁴, the smallest positive double. -/
def unitsOfOne : Nat := 2 ^ 1074

/-- The sign bit, which is also set on negative zero. -/
def isNegative (x : Float) : Bool := decide (2 ^ 63 ≤ x.toBits.toNat)

/-- The size of a finite double in units of 2⁻¹⁰⁷⁴. -/
def units (x : Float) : Nat :=
  let b := x.toBits.toNat % 2 ^ 63
  if b < 2 ^ 52 then b else (2 ^ 52 + b % 2 ^ 52) * 2 ^ (b / 2 ^ 52 - 1)

/-- The nearest whole number to a quotient; a half goes to the even neighbour. -/
def divNearestEven (a b : Nat) : Nat :=
  let q := a / b
  let r := a % b
  if 2 * r < b ∨ (2 * r = b ∧ q % 2 = 0) then q else q + 1

@[simp] theorem divNearestEven_one (a : Nat) : divNearestEven a 1 = a := by
  simp [divNearestEven, Nat.mod_one]

def infinityBits : Nat := 0x7ff0000000000000

/-- The bits of the double nearest to `num / den`, infinity from the overflow bound on.
The quotient in units is cut to 53 binary digits; a carry out of them moves on into the
exponent, because the exponent field stands right above the significand. -/
def nearestBits (num den : Nat) : Nat :=
  let n := num * unitsOfOne
  let shift := (n / den).log2 - 52
  min (shift * 2 ^ 52 + divNearestEven n (den * 2 ^ shift)) infinityBits

def ofSignBits (negative : Bool) (bits : Nat) : Float :=
  Float.ofBits (UInt64.ofNat (if negative then 2 ^ 63 + bits else bits))

/-- The double nearest to `num / den`, with the given sign. -/
def nearest (negative : Bool) (num den : Nat) : Float :=
  ofSignBits negative (nearestBits num den)

def ofInt (i : Int) : Float := nearest (decide (i < 0)) i.natAbs 1

/-- The size of a finite double without its fraction. -/
def whole (x : Float) : Nat := units x / unitsOfOne

/-- The fraction of a finite double, in units. -/
def fraction (x : Float) : Nat := units x % unitsOfOne

/-- A finite double without a fraction. -/
def isWhole (x : Float) : Bool := x.isFinite && fraction x == 0

/-- A finite double replaced by a whole one of its sign; the others stay as they are. -/
def mapWhole (f : Bool → Nat → Nat → Nat) (x : Float) : Float :=
  if x.isFinite then nearest (isNegative x) (f (isNegative x) (whole x) (fraction x)) 1 else x

def floor : Float → Float :=
  mapWhole fun negative w r => if negative ∧ r ≠ 0 then w + 1 else w

def ceil : Float → Float :=
  mapWhole fun negative w r => if ¬negative ∧ r ≠ 0 then w + 1 else w

/-- The nearest whole double; a half goes away from zero. -/
def round : Float → Float :=
  mapWhole fun _ w r => if unitsOfOne ≤ 2 * r then w + 1 else w

/-- The whole part held within two bounds; 0 for what is not a number. -/
def truncate (lo hi : Int) (x : Float) : Int :=
  if x.isNaN then 0
  else if x.isFinite then
    let w : Int := if isNegative x then -(whole x : Int) else whole x
    max lo (min hi w)
  else if isNegative x then lo else hi

def toInt64 (x : Float) : Int64 := Int64.ofInt (truncate (-2 ^ 63) (2 ^ 63 - 1) x)

def toInt32 (x : Float) : Int32 := Int32.ofInt (truncate (-2 ^ 31) (2 ^ 31 - 1) x)

def ofInt64 (i : Int64) : Float := ofInt i.toInt

/-- `r * a ^ e` by squaring, over at most `n` binary digits of the exponent. -/
def squareMultiply : Nat → Float → Float → Nat → Float
  | 0, r, _, _ => r
  | n + 1, r, a, e =>
    let r := if e % 2 = 1 then r * a else r
    if e / 2 = 0 then r else squareMultiply n r (a * a) (e / 2)

/-- A power of ten; a negative one is the inverse of the positive one. -/
def powerOfTen (k : Int32) : Float :=
  let r := squareMultiply 32 1 10 k.toInt.natAbs
  if k < 0 then 1 / r else r

/-- The number rounded to so many decimal places, a half going away from zero. -/
def roundTo (x : Float) (places : Int32) : Float :=
  let m := powerOfTen places
  round (x * m) / m

/-- The smaller of two numbers, the second of equal ones, which may be zeros of different signs;
what is not a number gives way. -/
def least (a b : Float) : Float := if b.isNaN then a else if a < b then a else b

/-- The larger of two numbers, the second of equal ones; what is not a number gives way. -/
def greatest (a b : Float) : Float := if b.isNaN then a else if b < a then a else b

end TableImport.Binary64
