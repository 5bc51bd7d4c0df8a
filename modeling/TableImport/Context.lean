import TableImport.Document
import TableImport.Json.Printer
import TableImport.Calendar.Reader

/-! What an import knows besides the table: the snapshot's date and origin, and how rows belong to
stored entities. -/
namespace TableImport

structure Context where
  snapshotDate : Date
  snapshotType : String := "monthly"
  dataSource : String := "spreadsheet"
  /-- The path of the natural key in primary documents. -/
  keyPath? : Option String := none
  /-- The stored identifiers by natural key. -/
  entityIds : Assoc String := []

/-- A natural key as text: a text without the blanks around it, a whole number in plain digits,
any other number as JSON has it. -/
def naturalKey? : Json → Option String
  | .string s => if isBlankText s then none else some (trim s)
  | v =>
    match v.wholeNumber? with
    | some i => some (toString i)
    | none => v.numberText

namespace Context

/-- The identifier stored for a document's natural key, or the key itself. -/
def entityId? (c : Context) (primary : Document) : Option String :=
  (c.keyPath?.bind primary.getPath?).bind naturalKey? |>.map fun key =>
    (Assoc.get? key c.entityIds).getD key

def decodeDate : Decoder Date
  | .string s => match Date.read? s with
    | some d => .ok d
    | none => .error .shape
  | _ => .error .shape

def decode : Decoder Context :=
  Decoder.record
    [("snapshot_date", Decoder.check decodeDate), ("snapshot_type", Decoder.check Decoder.text),
      ("data_source", Decoder.check Decoder.text),
      ("key_path", Decoder.check (Decoder.optional Decoder.text)),
      ("entity_ids", Decoder.check Decoder.textMap)]
    fun given => do
      let snapshotDate ← Decoder.required decodeDate (given "snapshot_date")
      let snapshotType ← Decoder.required Decoder.text (given "snapshot_type")
      let dataSource ← Decoder.required Decoder.text (given "data_source")
      let keyPath? ← Decoder.withDefault none (Decoder.optional Decoder.text) (given "key_path")
      let entityIds ← Decoder.withDefault [] Decoder.textMap (given "entity_ids")
      .ok ⟨snapshotDate, snapshotType, dataSource, keyPath?, entityIds⟩

end Context
end TableImport
