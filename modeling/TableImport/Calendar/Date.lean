import TableImport.Number.Binary64

/-! Dates of the Gregorian calendar, and the day numbers that spreadsheets store for them. -/
namespace TableImport

def isLeapYear (year : Int) : Bool :=
  year % 4 == 0 && (year % 100 != 0 || year % 400 == 0)

def monthLength (year : Int) (month : Nat) : Nat :=
  match month with
  | 2 => if isLeapYear year then 29 else 28
  | 4 | 6 | 9 | 11 => 30
  | _ => 31

/-- The dates of the calendar: years from -262143 to 262142 and the days of their months. -/
def IsDate (year : Int) (month day : Nat) : Prop :=
  -262143 ≤ year ∧ year ≤ 262142 ∧ 1 ≤ month ∧ month ≤ 12 ∧ 1 ≤ day ∧ day ≤ monthLength year month

instance (year : Int) (month day : Nat) : Decidable (IsDate year month day) := by
  unfold IsDate; infer_instance

structure Date where
  year : Int
  month : Nat
  day : Nat
  isDate : IsDate year month day
  deriving DecidableEq

namespace Date

def of? (year : Int) (month day : Nat) : Option Date :=
  if h : IsDate year month day then some ⟨year, month, day, h⟩ else none

@[simp] theorem of?_self (d : Date) : of? d.year d.month d.day = some d := by
  simp [of?, d.isDate]

instance : Inhabited Date := ⟨1970, 1, 1, by decide⟩

/-- The date so many days after 1 March of the year 0. Years start in March here, and four
hundred of them have 146097 days. -/
def ofDays? (days : Nat) : Option Date :=
  let era := days / 146097
  let dayOfEra := days % 146097
  let yearOfEra := (dayOfEra - dayOfEra / 1460 + dayOfEra / 36524 - dayOfEra / 146096) / 365
  let dayOfYear := dayOfEra - (365 * yearOfEra + yearOfEra / 4 - yearOfEra / 100)
  let fromMarch := (5 * dayOfYear + 2) / 153
  let day := dayOfYear - (153 * fromMarch + 2) / 5 + 1
  let month := if fromMarch < 10 then fromMarch + 3 else fromMarch - 9
  of? (era * 400 + yearOfEra + if month ≤ 2 then 1 else 0 : Nat) month day

/-- 30 December 1899, the day before the first of the serial numbers, in days after 1 March of
the year 0. -/
def serialEpoch : Nat := 693899

/-- The date of a spreadsheet's serial number; they run from 1 up to the end of the year 9999. -/
def ofSerial? (x : Float) : Option Date :=
  if 1 ≤ x ∧ x ≤ 2958465 then ofDays? (serialEpoch + Binary64.whole x) else none

def padded (width n : Nat) : List Char :=
  let ds := Nat.toDigits 10 n
  List.replicate (width - ds.length) '0' ++ ds

/-- Four digits at least; a sign before years that are negative or have more. -/
def yearChars (year : Int) : List Char :=
  if 0 ≤ year ∧ year ≤ 9999 then padded 4 year.natAbs
  else (if year < 0 then '-' else '+') :: padded 4 year.natAbs

def chars (d : Date) : List Char :=
  yearChars d.year ++ '-' :: padded 2 d.month ++ '-' :: padded 2 d.day

def text (d : Date) : String := String.ofList d.chars

def compact (d : Date) : String :=
  String.ofList (yearChars d.year ++ padded 2 d.month ++ padded 2 d.day)

end Date
end TableImport
