import TableImport.Expr.Basic
import TableImport.Expr.Function
import TableImport.Number.Layout

/-! The tokens of expressions and the errors that expressions have. -/
namespace TableImport

namespace Expr

inductive TokenKind where
  | number (x : Float)
  | identifier (path : String)
  | function (name : String)
  | operator (op : BinaryOp)
  | comparison (op : CompareOp)
  | openParen | closeParen | comma
  | endOfInput

/-- A token and the number of bytes before it. -/
structure Token where
  kind : TokenKind
  offset : Nat

def TokenKind.text : TokenKind → String
  | number x => Layout.plain.text x
  | identifier s | function s => s
  | operator op => op.text
  | comparison op => op.text
  | openParen => "("
  | closeParen => ")"
  | comma => ","
  | endOfInput => "end of input"

end Expr

/-- Why an expression cannot be read or evaluated. -/
inductive ExprError where
  | unexpectedChar (c : Char) (offset : Nat)
  | expected (kind : Expr.TokenKind) (found : Expr.Token)
  | unexpected (found : Expr.Token)
  | afterExpression (found : Expr.Token)
  | unknownFunction (name : String) (offset? : Option Nat)
  | argumentCount (f : Function) (actual : Nat)

def ExprError.message : ExprError → String
  | unexpectedChar c offset => s!"Unexpected character '{c}' at offset {offset}"
  | expected kind found =>
    s!"Parse error: Expected '{kind.text}' at offset {found.offset}, got '{found.kind.text}'"
  | unexpected found => s!"Parse error: Unexpected '{found.kind.text}' at offset {found.offset}"
  | afterExpression found =>
    s!"Parse error: Unexpected '{found.kind.text}' at offset {found.offset} after expression"
  | unknownFunction name none => s!"Unknown function: {name}"
  | unknownFunction name (some offset) => s!"Unknown function: {name} (at offset {offset})"
  | argumentCount f actual =>
    s!"Wrong number of arguments for {f.name}: expected {f.arity}, got {actual}"

end TableImport
