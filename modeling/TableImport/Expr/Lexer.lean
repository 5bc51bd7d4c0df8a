import TableImport.Expr.Token
import TableImport.Number.Decimal
import TableImport.Text.Blank

/-! Cutting the text of an expression into tokens. -/
namespace TableImport.Expr

def isNameStart (c : Char) : Bool :=
  decide ('a' ≤ c ∧ c ≤ 'z') || decide ('A' ≤ c ∧ c ≤ 'Z') || c == '_'

def isNameChar (c : Char) : Bool := isNameStart c || isDigit c || c == '.'

/-- The digits of a number at the head of a text, before and after its point. A point without a
digit after it is not part of the number. -/
def numberChars (cs : List Char) : List Char × List Char :=
  (cs.takeWhile isDigit,
    match cs.dropWhile isDigit with
    | '.' :: r => r.takeWhile isDigit
    | _ => [])

/-- A sign of comparison; each takes an equals sign that follows it. -/
def comparison? (c : Char) (followed : Bool) : Option CompareOp :=
  match c, followed with
  | '>', false => some .greater
  | '>', true => some .greaterEqual
  | '<', false => some .less
  | '<', true => some .lessEqual
  | '=', _ => some .equal
  | '!', true => some .notEqual
  | _, _ => none

/-- The token at the head of a text, and the number of characters after its first that belong to
it. A name is a function's if a parenthesis follows, blanks apart. -/
def lexeme? (c : Char) (cs : List Char) : Option (TokenKind × Nat) :=
  match c with
  | '+' => some (.operator .add, 0)
  | '-' => some (.operator .sub, 0)
  | '*' => some (.operator .mul, 0)
  | '/' => some (.operator .div, 0)
  | '(' => some (.openParen, 0)
  | ')' => some (.closeParen, 0)
  | ',' => some (.comma, 0)
  | _ =>
    if c = '>' ∨ c = '<' ∨ c = '=' ∨ c = '!' then
      let followed := cs.head? == some '='
      (comparison? c followed).map fun op => (.comparison op, if followed then 1 else 0)
    else if isDigit c ∨ (c = '.' ∧ cs.head?.any isDigit) then
      let (whole, fraction) := numberChars (c :: cs)
      let length := if fraction = [] then whole.length else whole.length + 1 + fraction.length
      some (.number (Numeral.toFloat false ⟨whole, fraction, 0⟩), length - 1)
    else if isNameStart c then
      let more := cs.takeWhile isNameChar
      let name := String.ofList (c :: more)
      let isCall := (trimStart (cs.dropWhile isNameChar)).head? == some '('
      some (if isCall then .function name else .identifier name, more.length)
    else none

/-- The tokens of a text that stands `offset` bytes after the beginning, closed by the end of the
input. `skip` characters at its head belong to a token already read. -/
def tokensFrom (offset skip : Nat) : List Char → Except ExprError (List Token)
  | [] => .ok [⟨.endOfInput, offset⟩]
  | c :: cs =>
    let next := offset + c.utf8Size
    match skip with
    | skip + 1 => tokensFrom next skip cs
    | 0 =>
      if isBlankChar c then tokensFrom next 0 cs
      else match lexeme? c cs with
        | none => .error (.unexpectedChar c offset)
        | some (kind, more) => (tokensFrom next more cs).map (⟨kind, offset⟩ :: ·)

def tokenize (text : String) : Except ExprError (List Token) := tokensFrom 0 0 text.toList

end TableImport.Expr
