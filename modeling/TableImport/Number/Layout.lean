import TableImport.Number.Shortest

/-! How a double is written: in plain positional digits, or as JSON has it. -/
namespace TableImport

structure Layout where
  /-- Which of two shortest decimals at the same distance is written. -/
  tie : Tie
  /-- Whether a decimal exponent is written in positional digits. -/
  positional : Int → Bool
  /-- Whether a whole number ends in a point and a zero. -/
  pointZero : Bool
  /-- Least number of digits of a written exponent. -/
  exponentWidth : Nat

namespace Layout

/-- Plain digits without an exponent; whole numbers bare; the upper of two decimals. -/
def plain : Layout := ⟨.up, fun _ => true, false, 1⟩

/-- Exponents from -5 to 15 are positional, whole numbers keep `.0`, an exponent has a sign, and
the even one of two decimals is written. -/
def json : Layout := ⟨.toEven, fun e => decide (-5 ≤ e ∧ e ≤ 15), true, 1⟩

def zeros (n : Nat) : List Char := List.replicate n '0'

/-- Digits with the decimal point after the first `point` of them. -/
def positionalDigits (pointZero : Bool) (ds : List Char) (point : Int) : List Char :=
  if point ≤ 0 then '0' :: '.' :: zeros (-point).toNat ++ ds
  else if (ds.length : Int) ≤ point then
    ds ++ zeros (point.toNat - ds.length) ++ if pointZero then ['.', '0'] else []
  else ds.take point.toNat ++ '.' :: ds.drop point.toNat

def exponentDigits (width : Nat) (e : Int) : List Char :=
  let ds := Nat.toDigits 10 e.natAbs
  (if e < 0 then '-' else '+') :: zeros (width - ds.length) ++ ds

def magnitude (l : Layout) (x : Float) : List Char :=
  let s := Scaled.shortest l.tie x
  let ds := Nat.toDigits 10 s.digits
  let point := ds.length + s.exponent
  if l.positional (point - 1) then positionalDigits l.pointZero ds point
  else
    let mantissa := match ds with
      | d :: e :: es => d :: '.' :: e :: es
      | _ => ds
    mantissa ++ 'e' :: exponentDigits l.exponentWidth (point - 1)

def chars (l : Layout) (x : Float) : List Char :=
  if x.isNaN then "NaN".toList
  else
    let digits :=
      if ¬x.isFinite then "inf".toList
      else if x == 0 then '0' :: if l.pointZero then ['.', '0'] else []
      else l.magnitude x
    if Binary64.isNegative x then '-' :: digits else digits

def text (l : Layout) (x : Float) : String := String.ofList (l.chars x)

end Layout
end TableImport
