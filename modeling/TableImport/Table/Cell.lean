import TableImport.Number.Layout
import TableImport.Text.Blank

/-! Cells, rows and tables as they come from a document. -/
namespace TableImport

inductive Cell where
  | empty
  | bool (b : Bool)
  | number (x : Float)
  | text (s : String)

abbrev Row := List Cell

/-- A table; its first row is the header. -/
abbrev Table := List Row

/-- A whole number below `10 ^ 15` without a point; any other number in plain digits. -/
def numberText (x : Float) : String :=
  if Binary64.isWhole x ∧ x.abs < 1e15 then toString (Binary64.toInt64 x).toInt
  else Layout.plain.text x

namespace Cell

instance : Inhabited Cell := ⟨empty⟩

def ofText (s : String) : Cell := if s.isEmpty then empty else text s

def text? : Cell → Option String
  | empty => none
  | bool b => some (if b then "true" else "false")
  | number x => some (numberText x)
  | text s => some s

def display (c : Cell) : String := c.text?.getD ""

def isBlank : Cell → Bool
  | empty => true
  | text s => isBlankText s
  | bool _ | number _ => false

end Cell

def Row.isBlank (row : Row) : Bool := row.all Cell.isBlank

end TableImport
