import TableImport.Expr.Lexer

/-! Parsing by operator precedence, with a stack of what is open to the left. Comparisons bind
loosest and do not chain; sums, products and negations bind tighter in this order. -/
namespace TableImport.Expr

/-- What is open to the left of an operand. -/
inductive Frame where
  | negate
  | binary (left : Expr) (op : BinaryOp)
  | compare (left : Expr) (op : CompareOp)
  | group
  | call (f : Function) (args : List Expr)

/-- What is expected next; `after` holds an operand that has been read. -/
inductive Mode where
  | operand
  | opening (f : Function)
  | firstArgument
  | after (e : Expr)

/-- Closes the frames that bind an operand at least as tightly as `level`. -/
def settle (level : Nat) (e : Expr) : List Frame → Expr × List Frame
  | .negate :: stack => settle level (.negate e) stack
  | .binary l op :: stack =>
    if level ≤ op.precedence then settle level (.binary op l e) stack
    else (e, .binary l op :: stack)
  | .compare l op :: stack =>
    if level ≤ 1 then settle level (.compare op l e) stack else (e, .compare l op :: stack)
  | stack => (e, stack)

def closeCall (f : Function) (args : List Expr) : Except ExprError Expr :=
  if f.accepts args.length then .ok (.call f.name args)
  else .error (.argumentCount f args.length)

def refuse (stack : List Frame) (found : Token) : ExprError :=
  match stack with
  | [] => .afterExpression found
  | _ => .expected .closeParen found

/-- Parses the tokens that remain. `last` is the offset reported at their end. -/
def parseFrom (last : Nat) (mode : Mode) (stack : List Frame) :
    List Token → Except ExprError Expr
  | [] =>
    match mode with
    | .operand | .firstArgument => .error (.unexpected ⟨.endOfInput, last⟩)
    | .opening _ => .error (.expected .openParen ⟨.endOfInput, last⟩)
    | .after e =>
      match settle 1 e stack with
      | (e, []) => .ok e
      | (_, stack) => .error (refuse stack ⟨.endOfInput, last⟩)
  | t :: ts =>
    match mode with
    | .operand | .firstArgument =>
      match t.kind with
      | .number x => parseFrom last (.after (.number x)) stack ts
      | .identifier path => parseFrom last (.after (.var path)) stack ts
      | .function name =>
        match Function.lookup? name with
        | some f => parseFrom last (.opening f) stack ts
        | none => .error (.unknownFunction name (some t.offset))
      | .operator .sub => parseFrom last .operand (.negate :: stack) ts
      | .openParen => parseFrom last .operand (.group :: stack) ts
      | .closeParen =>
        match mode, stack with
        | .firstArgument, .call f args :: stack => do
          parseFrom last (.after (← closeCall f args)) stack ts
        | _, _ => .error (.unexpected t)
      | _ => .error (.unexpected t)
    | .opening f =>
      match t.kind with
      | .openParen => parseFrom last .firstArgument (.call f [] :: stack) ts
      | _ => .error (.expected .openParen t)
    | .after e =>
      match t.kind with
      | .operator op =>
        let (e, stack) := settle op.precedence e stack
        parseFrom last .operand (.binary e op :: stack) ts
      | .comparison op =>
        match settle 2 e stack with
        | (_, .compare _ _ :: stack) => .error (refuse stack t)
        | (e, stack) => parseFrom last .operand (.compare e op :: stack) ts
      | kind =>
        match kind, settle 1 e stack with
        | .endOfInput, (e, []) => .ok e
        | .closeParen, (e, .group :: stack) => parseFrom last (.after e) stack ts
        | .closeParen, (e, .call f args :: stack) => do
          parseFrom last (.after (← closeCall f (args ++ [e]))) stack ts
        | .comma, (e, .call f args :: stack) =>
          parseFrom last .operand (.call f (args ++ [e]) :: stack) ts
        | _, (_, stack) => .error (refuse stack t)

/-- The expression of the tokens up to the end of the input. -/
def parseTokens (tokens : List Token) : Except ExprError Expr :=
  parseFrom (tokens.getLast?.elim 0 Token.offset) .operand [] tokens

def parse (text : String) : Except ExprError Expr := do parseTokens (← tokenize text)

end TableImport.Expr
