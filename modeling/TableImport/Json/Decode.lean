import TableImport.Json.Reader
import TableImport.Number.Layout

/-! Reading records out of JSON values. -/
namespace TableImport

/-- Why a JSON text or value does not have the expected form. -/
inductive DecodeError where
  | text
  | shape
  | formulaWithoutForm
  | formulaWithoutOperand
  | unusableNumber (x : Float)
  | outOfRange (x : Float)

def DecodeError.message : DecodeError → String
  | text => "the text is not JSON"
  | shape => "the value does not have the expected form"
  | formulaWithoutForm => "formula needs either `expression` or `type`"
  | formulaWithoutOperand => "legacy formula requires `operand1`"
  | unusableNumber x => Layout.plain.text x ++ " is not a usable whole number"
  | outOfRange x => Layout.plain.text x ++ " is out of range"

abbrev Decoder (α : Type) := Json → Except DecodeError α

namespace Decoder
variable {α : Type}

def text : Decoder String
  | .string s => .ok s
  | _ => .error .shape

def bool : Decoder Bool
  | .bool b => .ok b
  | _ => .error .shape

def float (v : Json) : Except DecodeError Float :=
  match v.float? with
  | some x => .ok x
  | none => .error .shape

/-- A whole number within the bounds; a double is none, whatever its value. -/
def within (lo hi : Int) : Decoder Int
  | .int i => if lo ≤ i ∧ i ≤ hi then .ok i else .error .shape
  | _ => .error .shape

def int32 (v : Json) : Except DecodeError Int32 :=
  (within (-2 ^ 31) (2 ^ 31 - 1) v).map Int32.ofInt

def uint32 (v : Json) : Except DecodeError UInt32 :=
  (within 0 (2 ^ 32 - 1) v).map fun i => UInt32.ofNat i.toNat

/-- A value that may be absent: null stands for none. -/
def optional (d : Decoder α) : Decoder (Option α)
  | .null => .ok none
  | v => (d v).map some

def list (d : Decoder α) : Decoder (List α)
  | .array items => items.mapM d
  | _ => .error .shape

def textMap : Decoder (Assoc String)
  | .object fields => fields.mapM fun f => (text f.2).map (f.1, ·)
  | _ => .error .shape

/-- One of finitely many names. An object with the name as its only key and null under it stands
for the name. -/
def oneOf (names : List (String × α)) (v : Json) : Except DecodeError α :=
  let name? := match v with
    | .string s => some s
    | .object [(s, .null)] => some s
    | _ => none
  match name?.bind (names.lookup ·) with
  | some a => .ok a
  | none => .error .shape

/-- Whether the value can be read, without the result. -/
def check (d : Decoder α) (v : Json) : Except DecodeError Unit := (d v).map fun _ => ()

/-- The values given for the named fields: by key in an object, by position in an array. -/
def members (names : List String) : Decoder (List (String × Json))
  | .object fields => .ok (fields.filter fun f => names.contains f.1)
  | .array items => .ok (names.zip items)
  | _ => .error .shape

def tooLong (names : List String) : Json → Bool
  | .array items => decide (names.length < items.length)
  | _ => false

/-- A record. The given fields are checked in the order in which they stand, so that the first
faulty one decides the error; too many or too few show only afterwards. -/
def record (checks : List (String × (Json → Except DecodeError Unit)))
    (build : (String → Option Json) → Except DecodeError α) (v : Json) : Except DecodeError α := do
  let names := checks.map Prod.fst
  let given ← members names v
  given.forM fun f => match checks.lookup f.1 with
    | some c => c f.2
    | none => .ok ()
  if tooLong names v then .error .shape
  else build fun name => given.lookup name

def required (d : Decoder α) (v? : Option Json) : Except DecodeError α :=
  match v? with
  | some v => d v
  | none => .error .shape

/-- The value of a field that may be left out, but then stands for the default. -/
def withDefault (default : α) (d : Decoder α) (v? : Option Json) : Except DecodeError α :=
  match v? with
  | some v => d v
  | none => .ok default

end Decoder

/-- The value of a JSON text, read by a decoder. -/
def Decoder.ofText {α : Type} (d : Decoder α) (text : String) : Except DecodeError α :=
  match Json.read? text with
  | some v => d v
  | none => .error .text

def Decoder.ofBytes {α : Type} (d : Decoder α) (bytes : ByteArray) : Except DecodeError α :=
  match Json.readBytes? bytes with
  | some v => d v
  | none => .error .text

/-- Tokens that occur after the start of an object whose values are texts. -/
def Json.Token.isOfTexts : Json.Token → Bool
  | .scalar (.string _) | .colon | .comma | .endObject => true
  | _ => false

/-- The object of texts in a JSON text. Every value has to be a text, also one that gives way to a
later value of the same key. -/
def Json.readTexts? (bytes : ByteArray) : Option (Assoc String) := do
  let text ← String.fromUTF8? bytes
  let tokens ← tokens? 0 text.toList
  let v ← run? .value [] tokens
  if tokens.tail.all Token.isOfTexts then (Decoder.textMap v).toOption else none

/-- An object of the fields that have a value. -/
def Json.ofFields (fields : List (String × Option Json)) : Json :=
  .object (Assoc.ofPairs (fields.filterMap fun f => f.2.map (f.1, ·)))

end TableImport
