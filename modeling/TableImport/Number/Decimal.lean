import TableImport.Number.Shortest

/-! Reading decimal numerals as doubles. -/
namespace TableImport

def isDigit (c : Char) : Bool := decide ('0' ≤ c ∧ c ≤ '9')

/-- A decimal numeral cut into the digits around its point and its exponent. -/
structure Numeral where
  whole : List Char
  fraction : List Char
  exponent : Int
  deriving DecidableEq, Repr

namespace Numeral

def digits (n : Numeral) : Nat := Nat.ofDigitChars 10 (n.whole ++ n.fraction) 0

def scaled (n : Numeral) : Scaled := ⟨n.digits, n.exponent - n.fraction.length⟩

/-- The nearest double. A decimal that lies outside the doubles' range by its exponent alone
is infinite or zero at once, without its power of ten. -/
def toFloat (negative : Bool) (n : Numeral) : Float :=
  let s := n.scaled
  let top := (n.whole.length + n.fraction.length : Int) + s.exponent
  if s.digits = 0 ∨ top < -400 then Binary64.ofSignBits negative 0
  else if 400 < s.exponent then Binary64.ofSignBits negative Binary64.infinityBits
  else s.toFloat negative

end Numeral

/-- An optional sign, and what follows it. -/
def takeSign : List Char → Bool × List Char
  | '-' :: cs => (true, cs)
  | '+' :: cs => (false, cs)
  | cs => (false, cs)

/-- An exponent such as `e+5`; none means 0. -/
def readExponent? : List Char → Option Int
  | [] => some 0
  | c :: cs =>
    let (negative, ds) := takeSign cs
    if (c = 'e' ∨ c = 'E') ∧ ds ≠ [] ∧ ds.all isDigit then
      let e : Int := Nat.ofDigitChars 10 ds 0
      some (if negative then -e else e)
    else none

/-- An unsigned numeral: digits on at least one side of an optional point, then an exponent. -/
def readNumeral? (cs : List Char) : Option Numeral :=
  let whole := cs.takeWhile isDigit
  let (fraction, rest) := match cs.dropWhile isDigit with
    | '.' :: r => (r.takeWhile isDigit, r.dropWhile isDigit)
    | r => ([], r)
  if whole = [] ∧ fraction = [] then none
  else (readExponent? rest).map fun e => ⟨whole, fraction, e⟩

def isWord (word : String) (cs : List Char) : Bool := cs.map Char.toLower == word.toList

/-- A double: a sign, then a numeral, or one of the words for infinity and for no number in
any letter case. -/
def readFloatChars? (cs : List Char) : Option Float :=
  let (negative, body) := takeSign cs
  if isWord "inf" body || isWord "infinity" body then
    some (Binary64.ofSignBits negative Binary64.infinityBits)
  else if isWord "nan" body then some (0 / 0)
  else (readNumeral? body).map (Numeral.toFloat negative)

def readFloat? (s : String) : Option Float := readFloatChars? s.toList

end TableImport
