import TableImport.Json.Numeral

/-! The tokens of JSON texts. -/
namespace TableImport.Json

inductive Token where
  | beginArray | endArray | beginObject | endObject | colon | comma
  | scalar (v : Json)

/-- Where the reading of a text in quotes stands. A high surrogate waits for its low one. -/
inductive TextState where
  | plain
  | escape
  | hex (left code : Nat) (high : Option Nat)
  | backslash (high : Nat)
  | letterU (high : Nat)

def hexDigit? (c : Char) : Option Nat :=
  if isDigit c then some (c.toNat - '0'.toNat)
  else if 'a' ≤ c ∧ c ≤ 'f' then some (c.toNat - 'a'.toNat + 10)
  else if 'A' ≤ c ∧ c ≤ 'F' then some (c.toNat - 'A'.toNat + 10)
  else none

/-- The character that a letter stands for after a backslash. -/
def escaped? (c : Char) : Option Char :=
  match c with
  | '"' | '\\' | '/' => some c
  | 'b' => some '\x08'
  | 'f' => some '\x0c'
  | 'n' => some '\n'
  | 'r' => some '\r'
  | 't' => some '\t'
  | _ => none

def isHighSurrogate (n : Nat) : Bool := decide (0xD800 ≤ n ∧ n ≤ 0xDBFF)

def isLowSurrogate (n : Nat) : Bool := decide (0xDC00 ≤ n ∧ n ≤ 0xDFFF)

/-- What four hexadecimal digits stand for: a character, or a high surrogate to be completed. -/
def unit? (high : Option Nat) (n : Nat) : Option (Option Char × TextState) :=
  match high with
  | some h =>
    if isLowSurrogate n then
      some (some (Char.ofNat (0x10000 + (h - 0xD800) * 0x400 + (n - 0xDC00))), .plain)
    else none
  | none =>
    if isHighSurrogate n then some (none, .backslash n)
    else if isLowSurrogate n then none
    else some (some (Char.ofNat n), .plain)

/-- The text up to its closing quote, and the number of characters up to and with it. -/
def quoted? (state : TextState) (done : List Char) (passed : Nat) :
    List Char → Option (String × Nat)
  | [] => none
  | c :: cs =>
    match state with
    | .plain =>
      if c = '"' then some (String.ofList done.reverse, passed + 1)
      else if c = '\\' then quoted? .escape done (passed + 1) cs
      else if c.toNat < 0x20 then none
      else quoted? .plain (c :: done) (passed + 1) cs
    | .escape =>
      if c = 'u' then quoted? (.hex 3 0 none) done (passed + 1) cs
      else match escaped? c with
        | some e => quoted? .plain (e :: done) (passed + 1) cs
        | none => none
    | .hex left code high =>
      match hexDigit? c with
      | none => none
      | some d =>
        match left with
        | left + 1 => quoted? (.hex left (16 * code + d) high) done (passed + 1) cs
        | 0 =>
          match unit? high (16 * code + d) with
          | none => none
          | some (some e, next) => quoted? next (e :: done) (passed + 1) cs
          | some (none, next) => quoted? next done (passed + 1) cs
    | .backslash high => if c = '\\' then quoted? (.letterU high) done (passed + 1) cs else none
    | .letterU high => if c = 'u' then quoted? (.hex 3 0 (some high)) done (passed + 1) cs else none

/-- The exponent's digits after `e`, with the rest. -/
def takeExponent? : List Char → Option (Option (Bool × List Char) × List Char)
  | [] => some (none, [])
  | c :: cs =>
    if c = 'e' ∨ c = 'E' then
      let (negative, body) := takeSign cs
      let ds := body.takeWhile isDigit
      if ds = [] then none else some (some (negative, ds), body.dropWhile isDigit)
    else some (none, c :: cs)

/-- A number at the head of the text: its parts and what follows it. A zero is not followed by
another digit, and digits stand on both sides of a point. -/
def takeNumber? (cs : List Char) : Option (Parts × List Char) :=
  let (negative, body) := match cs with
    | '-' :: r => (true, r)
    | r => (false, r)
  let whole := body.takeWhile isDigit
  let rest := body.dropWhile isDigit
  if whole = [] ∨ (whole.head? = some '0' ∧ 1 < whole.length) then none
  else
    match rest with
    | '.' :: r =>
      let fraction := r.takeWhile isDigit
      if fraction = [] then none
      else
        (takeExponent? (r.dropWhile isDigit)).map fun (e, r) => (⟨negative, whole, fraction, e⟩, r)
    | r => (takeExponent? r).map fun (e, r) => (⟨negative, whole, [], e⟩, r)

/-- The characters that numbers consist of. -/
def isNumberChar (c : Char) : Bool := isDigit c || ['+', '-', '.', 'e', 'E'].contains c

def isSpace (c : Char) : Bool := c == ' ' || c == '\n' || c == '\r' || c == '\t'

/-- The token at the head of a text that does not start with a space, and the number of
characters after its first that belong to it. -/
def token? (c : Char) (cs : List Char) : Option (Token × Nat) :=
  let literal (word : String) (v : Json) : Option (Token × Nat) :=
    if word.toList.isPrefixOf cs then some (.scalar v, word.length) else none
  match c with
  | '[' => some (.beginArray, 0)
  | ']' => some (.endArray, 0)
  | '{' => some (.beginObject, 0)
  | '}' => some (.endObject, 0)
  | ':' => some (.colon, 0)
  | ',' => some (.comma, 0)
  | '"' => (quoted? .plain [] 0 cs).map fun (s, n) => (.scalar (string s), n)
  | 'n' => literal "ull" null
  | 't' => literal "rue" (bool true)
  | 'f' => literal "alse" (bool false)
  | _ =>
    let run := (c :: cs).takeWhile isNumberChar
    (takeNumber? run).bind fun (p, rest) =>
      (ofParts? p).map fun v => (.scalar v, run.length - 1 - rest.length)

/-- The tokens of a text; `skip` characters at its head belong to a token already read. -/
def tokens? (skip : Nat) : List Char → Option (List Token)
  | [] => some []
  | c :: cs =>
    match skip with
    | skip + 1 => tokens? skip cs
    | 0 =>
      if isSpace c then tokens? 0 cs
      else (token? c cs).bind fun (t, more) => (tokens? more cs).map (t :: ·)

end TableImport.Json
