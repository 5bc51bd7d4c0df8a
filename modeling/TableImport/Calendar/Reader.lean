import TableImport.Calendar.Date
import TableImport.Number.Decimal
import TableImport.Text.Blank

/-! Reading dates from texts. -/
namespace TableImport

/-- One part of a date's layout. Numbers may have blanks before them. -/
inductive DatePart where
  | year | month | day | hour | minute | second
  | mark (c : Char)
  | blanks

/-- The numbers of a date and a time of day read so far. -/
structure DateFields where
  year : Int := 0
  month : Nat := 0
  day : Nat := 0
  hour : Nat := 0
  minute : Nat := 0
  second : Nat := 0

namespace DateFields

/-- The date, where the time of day is one; a minute may have a second 60. -/
def date? (f : DateFields) : Option Date :=
  if f.hour < 24 ∧ f.minute < 60 ∧ f.second ≤ 60 then Date.of? f.year f.month f.day else none

end DateFields

/-- A number of one digit up to so many, and the rest. -/
def takeNumberUpTo? (most : Nat) (cs : List Char) : Option (Nat × List Char) :=
  let ds := (cs.takeWhile isDigit).take most
  if ds = [] then none else some (Nat.ofDigitChars 10 ds 0, cs.drop ds.length)

/-- A year of at most four digits, or of any number of them after a sign. -/
def takeYear? : List Char → Option (Int × List Char)
  | '-' :: cs => (takeNumberUpTo? cs.length cs).map fun (n, r) => (-(n : Int), r)
  | '+' :: cs => (takeNumberUpTo? cs.length cs).map fun (n, r) => ((n : Int), r)
  | cs => (takeNumberUpTo? 4 cs).map fun (n, r) => ((n : Int), r)

def takePart? (f : DateFields) (cs : List Char) : DatePart → Option (DateFields × List Char)
  | .year => (takeYear? (trimStart cs)).map fun (n, r) => ({ f with year := n }, r)
  | .month => (takeNumberUpTo? 2 (trimStart cs)).map fun (n, r) => ({ f with month := n }, r)
  | .day => (takeNumberUpTo? 2 (trimStart cs)).map fun (n, r) => ({ f with day := n }, r)
  | .hour => (takeNumberUpTo? 2 (trimStart cs)).map fun (n, r) => ({ f with hour := n }, r)
  | .minute => (takeNumberUpTo? 2 (trimStart cs)).map fun (n, r) => ({ f with minute := n }, r)
  | .second => (takeNumberUpTo? 2 (trimStart cs)).map fun (n, r) => ({ f with second := n }, r)
  | .mark c => match cs with
    | d :: r => if d = c then some (f, r) else none
    | [] => none
  | .blanks => some (f, trimStart cs)

def takeParts? (f : DateFields) (cs : List Char) : List DatePart → Option DateFields
  | [] => if cs = [] then some f else none
  | p :: ps => (takePart? f cs p).bind fun (g, r) => takeParts? g r ps

def readLayout? (cs : List Char) (layout : List DatePart) : Option Date :=
  (takeParts? {} cs layout).bind DateFields.date?

def ymd (mark : Char) : List DatePart := [.year, .mark mark, .month, .mark mark, .day]

def hourMinute : List DatePart := [.blanks, .hour, .mark ':', .minute]

def hourMinuteSecond : List DatePart := hourMinute ++ [.mark ':', .second]

def dateLayouts : List (List DatePart) :=
  [ymd '-', ymd '/', ymd '.', [.year, .mark '年', .month, .mark '月', .day, .mark '日']]

def dateTimeLayouts : List (List DatePart) :=
  [ymd '-' ++ hourMinuteSecond, ymd '/' ++ hourMinuteSecond, ymd '-' ++ hourMinute]

/-- A number of exactly so many digits, and the rest. -/
def takeExactly? (width : Nat) (cs : List Char) : Option (Nat × List Char) :=
  let ds := cs.take width
  if ds.length = width ∧ ds.all isDigit then some (Nat.ofDigitChars 10 ds 0, cs.drop width)
  else none

def takeOneOf? (marks : List Char) : List Char → Option (List Char)
  | c :: r => if marks.contains c then some r else none
  | [] => none

/-- The fraction of a second: a point and digits, or nothing. -/
def skipFraction? : List Char → Option (List Char)
  | '.' :: r => if (r.takeWhile isDigit).isEmpty then none else some (r.dropWhile isDigit)
  | r => some r

/-- An offset from universal time: a `Z`, or a sign, hours and minutes short of a whole day. -/
def isOffset (cs : List Char) : Bool :=
  cs == ['Z'] || cs == ['z'] || (do
    let r ← takeOneOf? ['+', '-', '−'] cs
    let (hours, r) ← takeExactly? 2 r
    let r ← takeOneOf? [':'] r
    let (minutes, r) ← takeExactly? 2 r
    if hours < 24 ∧ minutes < 60 ∧ r = [] then some () else none).isSome

/-- The local date of a timestamp with full-width numbers, `T` or a space before the time of
day, and an offset. -/
def readTimestamp? (cs : List Char) : Option Date := do
  let (year, r) ← takeExactly? 4 cs
  let r ← takeOneOf? ['-'] r
  let (month, r) ← takeExactly? 2 r
  let r ← takeOneOf? ['-'] r
  let (day, r) ← takeExactly? 2 r
  let r ← takeOneOf? ['T', 't', ' '] r
  let (hour, r) ← takeExactly? 2 r
  let r ← takeOneOf? [':'] r
  let (minute, r) ← takeExactly? 2 r
  let r ← takeOneOf? [':'] r
  let (second, r) ← takeExactly? 2 r
  let r ← skipFraction? r
  if isOffset r then DateFields.date? ⟨year, month, day, hour, minute, second⟩ else none

/-- The date of a text without blanks around it: a date alone, a timestamp, a date with a time of
day, or a serial number. -/
def readDate? (cs : List Char) : Option Date :=
  (dateLayouts.findSome? (readLayout? cs)).or <|
    (readTimestamp? cs).or <|
      (dateTimeLayouts.findSome? (readLayout? cs)).or <|
        (readFloatChars? cs).bind Date.ofSerial?

/-- A date with hyphens, as it stands alone in a setting; blanks may stand before each part and at
the end. -/
def Date.read? (s : String) : Option Date :=
  readLayout? s.toList [.year, .blanks, .mark '-', .month, .blanks, .mark '-', .day, .blanks]

end TableImport
