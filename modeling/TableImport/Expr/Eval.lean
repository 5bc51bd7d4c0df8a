import TableImport.Expr.Parser

/-! Evaluating expressions. -/
namespace TableImport

/-- The numbers of named values; a value that is missing has none. -/
abbrev Scope := String → Option Float

namespace Expr

def BinaryOp.apply (op : BinaryOp) (x y : Float) : Value :=
  match op with
  | .add => .number (x + y)
  | .sub => .number (x - y)
  | .mul => .number (x * y)
  | .div => if y == 0 then .null else .number (x / y)

def CompareOp.holds (op : CompareOp) (x y : Float) : Bool :=
  match op with
  | .greater => decide (y < x)
  | .less => decide (x < y)
  | .greaterEqual => decide (y ≤ x)
  | .lessEqual => decide (x ≤ y)
  | .equal => x == y
  | .notEqual => x != y

/-- Arithmetic on two values; null where one of them is. -/
def combine (op : BinaryOp) (a b : Value) : Value :=
  match a.number?, b.number? with
  | some x, some y => BinaryOp.apply op x y
  | _, _ => .null

/-- A comparison of two values; false where one of them is null. -/
def relate (op : CompareOp) (a b : Value) : Value :=
  match a.number?, b.number? with
  | some x, some y => .boolean (CompareOp.holds op x y)
  | _, _ => .boolean false

/-- A function's result for its arguments; null where it lets null through. -/
def invoke (f : Function) (args : List Value) : Value :=
  if f.propagatesNull && args.any Value.isNull then .null else f.apply args

mutual

/-- The value of an expression. A function's name and its number of arguments are checked before
its arguments are evaluated. -/
def eval (scope : Scope) : Expr → Except ExprError Value
  | number x => .ok (.number x)
  | var path => .ok (Value.ofOption (scope path))
  | negate e => do
    let v ← eval scope e
    .ok (Value.ofOption (v.number?.map Float.neg))
  | binary op l r => do
    let a ← eval scope l
    let b ← eval scope r
    .ok (combine op a b)
  | compare op l r => do
    let a ← eval scope l
    let b ← eval scope r
    .ok (relate op a b)
  | call name args =>
    match Function.lookup? name with
    | none => .error (.unknownFunction name none)
    | some f =>
      if f.accepts args.length then do
        let vs ← evalAll scope args
        .ok (invoke f vs)
      else .error (.argumentCount f args.length)

def evalAll (scope : Scope) : List Expr → Except ExprError (List Value)
  | [] => .ok []
  | e :: es => do
    let v ← eval scope e
    let vs ← evalAll scope es
    .ok (v :: vs)

end

/-- The value of a text; null where it cannot be read or evaluated. -/
def evalText (scope : Scope) (text : String) : Value :=
  match parse text with
  | .ok e => (eval scope e).toOption.getD .null
  | .error _ => .null

structure Check where
  valid : Bool
  variableNames : List String
  error? : Option ExprError

def check (text : String) : Check :=
  match parse text with
  | .ok e => ⟨true, e.variableNames, none⟩
  | .error e => ⟨false, [], some e⟩

end Expr
end TableImport
