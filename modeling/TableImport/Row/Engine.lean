import TableImport.Row.Reading
import TableImport.Row.Ids
import TableImport.Context

/-! Mapping the rows of tables to documents. -/
namespace TableImport

/-- Why a row is rejected, and the header of the rule that is to blame, if one is. -/
structure Rejection where
  reason : String
  header? : Option String
  deriving DecidableEq, Repr

namespace Rejection

/-- A required field of the primary document has no value that can be read. -/
def missingRequired (header : String) : Rejection := ⟨"missing required field", some header⟩

/-- No rule obtains a value. -/
def noData : Rejection := ⟨"empty row or no valid data", none⟩

end Rejection

inductive RowOutcome where
  | skipped
  | rejected (why : Rejection)
  | accepted (documents : Documents)

/-- A rejected row with its position in the table, where the header row is 0. -/
structure RejectedRow where
  index : Nat
  row : Row
  why : Rejection

/-- What a table yields: a primary document for every accepted row, the rejected rows, and the
snapshots of the accepted rows that have secondary data. -/
structure Output where
  accepted : List Document
  rejected : List RejectedRow
  snapshots : List Document

def Output.empty : Output := ⟨[], [], []⟩

/-- A mapping made ready for tables of one period and context. -/
structure Engine where
  rules : List Rule
  computed : List CompiledField
  context : Context
  period : PricePeriod

namespace Engine

def ofParts (rules : List Rule) (fields : List ComputedField) (context : Context)
    (period : PricePeriod) : Engine :=
  ⟨rules, fields.map CompiledField.compile, context, period⟩

def ofMapping (m : Mapping) (context : Context) (period : PricePeriod) : Engine :=
  ofParts m.rules m.computedFields context period

/-- Applies the rules and then the computed fields to a row; blank rows are skipped. -/
def mapRow (e : Engine) (header : Header) (row : Row) : RowOutcome :=
  if row.isBlank then .skipped
  else match Obtained.none.addAll e.period header row e.rules with
    | .error name => .rejected (.missingRequired name)
    | .ok o =>
      if o.isEmpty then .rejected .noData
      else .accepted (e.computed.foldl Documents.addComputed o.booked)

/-- A snapshot with its identifier, its date and origin, and the entity that it belongs to. -/
def link (e : Engine) (id : String) (d : Documents) : Document :=
  let c := e.context
  let owned := match c.entityId? d.primary with
    | some entity => d.secondary.insert "entity_id" (.string entity)
    | none => d.secondary
  owned.insert "snapshot_id" (.string (c.snapshotDate.compact ++ "-" ++ id))
    |>.insert "snapshot_date" (.string c.snapshotDate.text)
    |>.insert "snapshot_type" (.string c.snapshotType)
    |>.insert "data_source" (.string c.dataSource)

/-- Puts one row's outcome before the output of the rows after it. Only rows with secondary data
take an identifier. -/
def collect (e : Engine) (index : Nat) (row : Row) (outcome : RowOutcome) (ids : IdSource)
    (rest : IdSource → Output × IdSource) : Output × IdSource :=
  match outcome with
  | .skipped => rest ids
  | .rejected why =>
    let (out, ids) := rest ids
    ({ out with rejected := ⟨index, row, why⟩ :: out.rejected }, ids)
  | .accepted d =>
    if d.secondary.isEmpty then
      let (out, ids) := rest ids
      ({ out with accepted := d.primary :: out.accepted }, ids)
    else
      let (id, ids) := ids.next
      let (out, ids) := rest ids
      ({ out with
        accepted := d.primary :: out.accepted
        snapshots := e.link id d :: out.snapshots }, ids)

/-- Maps data rows, the first of which has the given position. -/
def mapRows (e : Engine) (header : Header) (index : Nat) :
    List Row → IdSource → Output × IdSource
  | [], ids => (.empty, ids)
  | row :: rows, ids =>
    e.collect index row (e.mapRow header row) ids (mapRows e header (index + 1) rows)

/-- Maps a table, whose first row is the header. -/
def mapTable (e : Engine) (table : Table) (ids : IdSource) : Output × IdSource :=
  match table with
  | [] => (.empty, ids)
  | header :: rows => e.mapRows (Header.ofRow header) 1 rows ids

/-- Maps tables one after another; the identifiers go on from table to table. -/
def mapTables (e : Engine) : List Table → IdSource → List Output × IdSource
  | [], ids => ([], ids)
  | table :: tables, ids =>
    let (out, ids) := e.mapTable table ids
    let (outs, ids) := mapTables e tables ids
    (out :: outs, ids)

end Engine
end TableImport
