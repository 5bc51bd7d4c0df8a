import TableImport.Json.Basic
import TableImport.Number.Layout

/-! Writing JSON texts, indented by two spaces. -/
namespace TableImport.Json

def hexLetter (n : Nat) : Char := if n < 10 then Char.ofNat (48 + n) else Char.ofNat (87 + n)

/-- A character inside quotes; control characters, the quote and the backslash are escaped. -/
def escape (c : Char) : List Char :=
  match c with
  | '"' => ['\\', '"']
  | '\\' => ['\\', '\\']
  | '\x08' => ['\\', 'b']
  | '\x0c' => ['\\', 'f']
  | '\n' => ['\\', 'n']
  | '\r' => ['\\', 'r']
  | '\t' => ['\\', 't']
  | c =>
    if c.toNat < 0x20 then
      ['\\', 'u', '0', '0', hexLetter (c.toNat / 16), hexLetter (c.toNat % 16)]
    else [c]

def quote (s : String) : String := String.ofList ('"' :: s.toList.flatMap escape ++ ['"'])

def indentation (depth : Nat) : String := String.ofList ('\n' :: List.replicate (2 * depth) ' ')

/-- A number that is not finite is written `null`. -/
def floatText (x : Float) : String := if x.isFinite then Layout.json.text x else "null"

mutual

/-- The text of a value whose line is indented `depth` times. -/
def pretty (depth : Nat) : Json → String
  | null => "null"
  | bool b => if b then "true" else "false"
  | int i => toString i
  | float x => floatText x
  | string s => quote s
  | array [] => "[]"
  | array (v :: vs) => "[" ++ prettyItems (depth + 1) (v :: vs) ++ indentation depth ++ "]"
  | object [] => "\x7b\x7d"
  | object (f :: fs) => "\x7b" ++ prettyFields (depth + 1) (f :: fs) ++ indentation depth ++ "\x7d"

def prettyItems (depth : Nat) : List Json → String
  | [] => ""
  | [v] => indentation depth ++ pretty depth v
  | v :: vs => indentation depth ++ pretty depth v ++ "," ++ prettyItems depth vs

def prettyFields (depth : Nat) : List (String × Json) → String
  | [] => ""
  | [(k, v)] => indentation depth ++ quote k ++ ": " ++ pretty depth v
  | (k, v) :: fs =>
    indentation depth ++ quote k ++ ": " ++ pretty depth v ++ "," ++ prettyFields depth fs

end

/-- The text of a number as it stands in JSON. -/
def numberText : Json → Option String
  | int i => some (toString i)
  | float x => some (floatText x)
  | _ => none

end TableImport.Json
