import TableImport.Number.Binary64

/-! The values of expressions and the functions that they can call. -/
namespace TableImport

/-- A value; data that are missing are null. -/
inductive Value where
  | number (x : Float)
  | boolean (b : Bool)
  | null

namespace Value

/-- The number of a value; the truth values count as 1 and 0. -/
def number? : Value → Option Float
  | number x => some x
  | boolean b => some (if b then 1 else 0)
  | null => none

def isNull : Value → Bool
  | null => true
  | _ => false

/-- Whether a condition holds; null, zero and what is not a number do not. -/
def isTruthy : Value → Bool
  | number x => x != 0 && !x.isNaN
  | boolean b => b
  | null => false

def ofOption : Option Float → Value
  | some x => number x
  | none => null

end Value

inductive Function where
  | min | max | abs | round | floor | ceil | sqrt | pow | if_ | coalesce
  deriving DecidableEq, Repr

namespace Function

def all : List Function := [min, max, abs, round, floor, ceil, sqrt, pow, if_, coalesce]

def name : Function → String
  | min => "min"
  | max => "max"
  | abs => "abs"
  | round => "round"
  | floor => "floor"
  | ceil => "ceil"
  | sqrt => "sqrt"
  | pow => "pow"
  | if_ => "if"
  | coalesce => "coalesce"

def minArgs : Function → Nat
  | if_ => 2
  | _ => 1

/-- The largest number of arguments, where there is one. -/
def maxArgs? : Function → Option Nat
  | min | max | coalesce => none
  | abs | floor | ceil | sqrt => some 1
  | round | pow => some 2
  | if_ => some 3

/-- Whether a null argument makes the call null. -/
def propagatesNull : Function → Bool
  | if_ | coalesce => false
  | _ => true

def accepts (f : Function) (count : Nat) : Bool :=
  decide (f.minArgs ≤ count) && f.maxArgs?.all fun most => decide (count ≤ most)

/-- The numbers of arguments, in words. -/
def arity (f : Function) : String :=
  match f.maxArgs? with
  | some most => if most = f.minArgs then toString most else s!"{f.minArgs} to {most}"
  | none => s!"at least {f.minArgs}"

/-- The function of a name, in any letter case. -/
def lookup? (s : String) : Option Function := all.find? fun f => f.name == s.map Char.toLower

def isName (s : String) : Bool := (lookup? s).isSome

def numberAt? (args : List Value) (i : Nat) : Option Float := (args[i]?).bind Value.number?

def onNumber (f : Float → Float) (args : List Value) : Value :=
  Value.ofOption ((numberAt? args 0).map f)

/-- The numbers among the arguments brought together by a choice between two. -/
def choose (f : Float → Float → Float) (args : List Value) : Value :=
  match args.filterMap Value.number? with
  | [] => .null
  | x :: xs => .number (xs.foldl f x)

def isAvailable : Value → Bool
  | .null => false
  | .number x => !x.isNaN
  | .boolean _ => true

/-- The result for given arguments, whatever their number. -/
def apply : Function → List Value → Value
  | min, args => choose Binary64.least args
  | max, args => choose Binary64.greatest args
  | abs, args => onNumber Float.abs args
  | round, args =>
    onNumber (fun x => Binary64.roundTo x (Binary64.toInt32 ((numberAt? args 1).getD 0))) args
  | floor, args => onNumber Binary64.floor args
  | ceil, args => onNumber Binary64.ceil args
  | sqrt, args => onNumber Float.sqrt args
  | pow, args => onNumber (fun x => x.pow ((numberAt? args 1).getD 2)) args
  | if_, args =>
    if (args[0]?).any Value.isTruthy then (args[1]?).getD .null else (args[2]?).getD (.number 0)
  | coalesce, args => (args.find? isAvailable).getD (.number 0)

end Function
end TableImport
