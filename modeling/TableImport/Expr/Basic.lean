import TableImport.Number.Binary64

/-! Expressions over numbers and named values. -/
namespace TableImport

inductive BinaryOp where
  | add | sub | mul | div
  deriving DecidableEq, Repr

inductive CompareOp where
  | greater | less | greaterEqual | lessEqual | equal | notEqual
  deriving DecidableEq, Repr

/-- An expression; the names of values may have dots in them. -/
inductive Expr where
  | number (x : Float)
  | var (path : String)
  | negate (e : Expr)
  | binary (op : BinaryOp) (left right : Expr)
  | compare (op : CompareOp) (left right : Expr)
  | call (name : String) (args : List Expr)

instance : Inhabited Expr := ⟨.number 0⟩

def BinaryOp.chars : BinaryOp → List Char
  | add => ['+']
  | sub => ['-']
  | mul => ['*']
  | div => ['/']

def CompareOp.chars : CompareOp → List Char
  | greater => ['>']
  | less => ['<']
  | greaterEqual => ['>', '=']
  | lessEqual => ['<', '=']
  | equal => ['=', '=']
  | notEqual => ['!', '=']

def BinaryOp.text (op : BinaryOp) : String := String.ofList op.chars

def CompareOp.text (op : CompareOp) : String := String.ofList op.chars

/-- How tightly an operator binds its operands. Comparisons bind at 1, negation at 4. -/
def BinaryOp.precedence : BinaryOp → Nat
  | add | sub => 2
  | mul | div => 3

namespace Expr

/-- How tightly an expression holds together; a number with a sign counts as a negation. -/
def precedence : Expr → Nat
  | compare .. => 1
  | binary op .. => op.precedence
  | negate _ => 4
  | number x => if Binary64.isNegative x then 4 else 5
  | var _ | call .. => 5

mutual

/-- The names of values from left to right, repetitions included. -/
def paths : Expr → List String
  | number _ => []
  | var path => [path]
  | negate e => paths e
  | binary _ l r | compare _ l r => paths l ++ paths r
  | call _ args => pathsOfAll args

def pathsOfAll : List Expr → List String
  | [] => []
  | e :: es => paths e ++ pathsOfAll es

end

def variableNames (e : Expr) : List String := e.paths.eraseDups

mutual

/-- Equality of trees in which numbers compare as doubles do: zeros are equal, and what is not a
number differs from itself. -/
def same : Expr → Expr → Bool
  | number x, number y => x == y
  | var p, var q => p == q
  | negate a, negate b => same a b
  | binary o a b, binary p c d => o == p && same a c && same b d
  | compare o a b, compare p c d => o == p && same a c && same b d
  | call f as, call g bs => f == g && sameAll as bs
  | _, _ => false

def sameAll : List Expr → List Expr → Bool
  | [], [] => true
  | a :: as, b :: bs => same a b && sameAll as bs
  | _, _ => false

end

end Expr
end TableImport
