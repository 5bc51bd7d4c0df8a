import TableImport.Table.Cell
import TableImport.Calendar.Reader
import TableImport.Config.Basic

/-! Reading cells as numbers, dates and texts. -/
namespace TableImport

/-- A number read from a text, and whether a percent sign stood behind it. -/
structure Amount where
  value : Float
  percent : Bool

def isSeparator (c : Char) : Bool := c == ',' || c == '，' || isBlankChar c

/-- A text without one of some characters at its head. -/
def dropOneOf (marks : List Char) : List Char → List Char
  | c :: cs => if marks.contains c then cs else c :: cs
  | [] => []

/-- The number of a text without separators: a currency sign, a sign, digits with a point among or
around them, a mark for ten thousands, a percent sign. All but the digits may be absent. -/
def amountOf? (cs : List Char) : Option Amount :=
  let (negative, body) := takeSign (dropOneOf ['¥', '￥', '$'] cs)
  let whole := body.takeWhile isDigit
  let (fraction, rest) := match body.dropWhile isDigit with
    | '.' :: r => (r.takeWhile isDigit, r.dropWhile isDigit)
    | r => ([], r)
  let afterMyriads := dropOneOf ['万', 'w', 'W'] rest
  let remainder := dropOneOf ['%', '％'] afterMyriads
  if (whole = [] ∧ fraction = []) ∨ remainder ≠ [] then none
  else
    let x := Numeral.toFloat negative ⟨whole, fraction, 0⟩
    some ⟨if afterMyriads = rest then x else x * 10000, afterMyriads ≠ []⟩

/-- The number of a text; blanks and thousands separators count nowhere. -/
def parseAmount? (s : String) : Option Amount :=
  amountOf? (s.toList.filter fun c => !isSeparator c)

/-- The number as JSON: a whole one below 2⁵³ as such, another finite one as a double. -/
def jsonNumber? (x : Float) : Option Json :=
  if Binary64.isWhole x ∧ x.abs < 9007199254740992 then
    some (.int (Binary64.toInt64 x).toInt)
  else if x.isFinite then some (.float x)
  else none

/-- Why a cell that is not blank has no value. -/
inductive CellFault where
  | notNumber | notFinite | notDate
  deriving DecidableEq, Repr

inductive Coerced where
  | value (v : Json)
  | missing
  | invalid (fault : CellFault)

namespace Cell

def faultMessage (c : Cell) : CellFault → String
  | .notNumber => s!"'{c.display}' is not a number"
  | .notFinite => s!"'{c.display}' is not a finite number"
  | .notDate => s!"'{c.display}' is not a date"

/-- The number in a cell; the truth values count as 1 and 0. -/
def amount? : Cell → Option Amount
  | empty => none
  | bool b => some ⟨if b then 1 else 0, false⟩
  | number x => some ⟨x, false⟩
  | text s => parseAmount? s

/-- The finite number in a cell, a percent sign disregarded. -/
def number? (c : Cell) : Option Float :=
  (c.amount?.map Amount.value).filter Float.isFinite

/-- The date in a cell: of a serial number or of a text. -/
def date? : Cell → Option Date
  | number x => Date.ofSerial? x
  | text s => readDate? (trimChars s.toList)
  | empty | bool _ => none

/-- The number in a cell as JSON; a percentage is a hundredth of what stands before its sign. -/
def coerceNumber (asPercentage : Bool) (c : Cell) : Coerced :=
  match c.amount? with
  | none => .invalid .notNumber
  | some a =>
    match jsonNumber? (if asPercentage && a.percent then a.value / 100 else a.value) with
    | some v => .value v
    | none => .invalid .notFinite

/-- Reads a cell in a format; a blank cell is missing in every one. -/
def coerce (c : Cell) (format : CellFormat) : Coerced :=
  if c.isBlank then .missing
  else match format with
    | .text => match c.text? with
      | some s => .value (.string (trim s))
      | none => .missing
    | .number => c.coerceNumber false
    | .percentage => c.coerceNumber true
    | .date => match c.date? with
      | some d => .value (.string d.text)
      | none => .invalid .notDate

end Cell
end TableImport
