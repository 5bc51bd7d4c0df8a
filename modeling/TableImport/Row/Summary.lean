import TableImport.Row.Engine

/-! Counts of what a table yielded, and its report as JSON and as a table. -/
namespace TableImport

structure Summary where
  valid : Nat
  invalid : Nat
  snapshots : Nat
  /-- Rejected rows by reason and header; rows without a header count under the empty text. -/
  rejections : Assoc (Assoc Nat)

namespace Summary

def count (m : Assoc (Assoc Nat)) (why : Rejection) : Assoc (Assoc Nat) :=
  let byHeader := (Assoc.get? why.reason m).getD []
  let header := why.header?.getD ""
  let n := (Assoc.get? header byHeader).getD 0
  Assoc.insert why.reason (Assoc.insert header (n + 1) byHeader) m

def ofOutput (o : Output) : Summary :=
  ⟨o.accepted.length, o.rejected.length, o.snapshots.length,
    o.rejected.foldl (fun m r => count m r.why) []⟩

def isClean (s : Summary) : Bool := s.invalid == 0

def line (reason header : String) (n : Nat) : String :=
  let rows := if n = 1 then "row" else "rows"
  if header.isEmpty then s!"  {n} {rows}: {reason}" else s!"  {n} {rows} {reason} {header}"

def lines (s : Summary) : List String :=
  s!"{s.valid} valid, {s.invalid} invalid, {s.snapshots} snapshots" ::
    s.rejections.flatMap fun r => r.2.map fun h => line r.1 h.1 h.2

def text (s : Summary) : String := "\n".intercalate s.lines

def toJson (s : Summary) : Json :=
  .object [("invalid", .int s.invalid),
    ("rejections", .object (s.rejections.map fun r =>
      (r.1, .object (r.2.map fun h => (h.1, .int h.2))))),
    ("snapshots", .int s.snapshots), ("valid", .int s.valid)]

end Summary

def Cell.toJson : Cell → Json
  | empty => .null
  | bool b => .bool b
  | number x => .ofFloat x
  | text s => .string s

namespace RejectedRow

def toJson (r : RejectedRow) : Json :=
  .ofFields [("index", some (.int r.index)), ("rawRow", some (.array (r.row.map Cell.toJson))),
    ("reason", some (.string r.why.reason)), ("field", r.why.header?.map .string)]

/-- The row after its position, the reason and the header. -/
def report (r : RejectedRow) : Row :=
  .number (Binary64.ofInt r.index) :: .text r.why.reason ::
    (r.why.header?.elim .empty .text) :: r.row

end RejectedRow

namespace Output

def summary (o : Output) : Summary := .ofOutput o

def toJson (o : Output) : Json :=
  .object [("invalidRows", .array (o.rejected.map RejectedRow.toJson)),
    ("secondaryData", .array (o.snapshots.map Document.toJson)),
    ("summary", o.summary.toJson), ("validData", .array (o.accepted.map Document.toJson))]

/-- A table of the rejected rows under a header of its own. -/
def rejectTable (o : Output) : Table :=
  [.text "row", .text "reason", .text "field"] :: o.rejected.map RejectedRow.report

end Output
end TableImport
