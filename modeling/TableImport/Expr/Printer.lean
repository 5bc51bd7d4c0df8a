import TableImport.Expr.Basic
import TableImport.Number.Layout

/-! Writing expressions with the parentheses that precedence needs. -/
namespace TableImport.Expr

/-- The characters of an operand, in parentheses if it binds too loosely for its place. -/
def enclose (loose : Bool) (cs : List Char) : List Char :=
  if loose then '(' :: cs ++ [')'] else cs

mutual

def chars : Expr → List Char
  | number x =>
    if Binary64.isNegative x then '-' :: Layout.plain.chars (-x) else Layout.plain.chars x
  | var path => path.toList
  | negate e => '-' :: enclose (decide (e.precedence < 4)) e.chars
  | binary op l r =>
    enclose (decide (l.precedence < op.precedence)) l.chars ++ ' ' :: op.chars ++
      ' ' :: enclose (decide (r.precedence ≤ op.precedence)) r.chars
  | compare op l r =>
    enclose (decide (l.precedence ≤ 1)) l.chars ++ ' ' :: op.chars ++
      ' ' :: enclose (decide (r.precedence ≤ 1)) r.chars
  | call name args => name.toList ++ '(' :: argumentChars args ++ [')']

def argumentChars : List Expr → List Char
  | [] => []
  | [e] => e.chars
  | e :: es => e.chars ++ ',' :: ' ' :: argumentChars es

end

def text (e : Expr) : String := String.ofList e.chars

end TableImport.Expr
