import TableImport.Proofs.Calendar.Writing
import TableImport.Proofs.Document.Keys
import TableImport.Proofs.Row.Accounting

/-! The snapshots of a run over tables: a counter numbers them through, and each has the metadata
of the import and belongs to the entity of its row. -/
namespace TableImport

/-- The identifier of the snapshot with a number: the date, the counter's text, and the number in
six digits at least. -/
def Context.snapshotId (c : Context) (start : String) (number : Nat) : String :=
  c.snapshotDate.compact ++ "-" ++ (start ++ String.ofList (Date.padded 6 number))

theorem Context.snapshotId_injective (c : Context) (start : String) :
    Function.Injective (c.snapshotId start) := by
  intro m n h
  unfold snapshotId at h
  have hchars := congrArg String.toList h
  simp only [String.toList_append, String.toList_ofList, List.append_cancel_left_eq] at hchars
  exact Date.padded_injective 6 hchars

example : Context.snapshotId { snapshotDate := ⟨2024, 1, 31, by decide⟩ } "s" 12 =
    "20240131-s000012" := by
  decide

namespace Document

/-- A snapshot with the metadata of an import, which belongs to the entity of a primary document,
if that document has one. -/
structure IsSnapshotOf (snapshot : Document) (c : Context) (primary : Document) : Prop where
  date : snapshot.get? "snapshot_date" = some (.string c.snapshotDate.text)
  type : snapshot.get? "snapshot_type" = some (.string c.snapshotType)
  source : snapshot.get? "data_source" = some (.string c.dataSource)
  entity : ∀ entity, c.entityId? primary = some entity →
    snapshot.get? "entity_id" = some (.string entity)

end Document

namespace Engine

theorem get?_link_id (e : Engine) (id : String) (d : Documents) :
    (e.link id d).get? "snapshot_id" =
      some (.string (e.context.snapshotDate.compact ++ "-" ++ id)) := by
  simp [link, Document.get?_insert_of_ne]

/-- Whatever the rules and computed fields have stored under the names of the metadata, linking
stores over it. -/
theorem isSnapshotOf_link (e : Engine) (id : String) (d : Documents) :
    (e.link id d).IsSnapshotOf e.context d.primary where
  date := by simp [link, Document.get?_insert_of_ne]
  type := by simp [link, Document.get?_insert_of_ne]
  source := by simp [link]
  entity := by
    intro entity hentity
    simp [link, hentity, Document.get?_insert_of_ne]

/-! ### Numbers -/

/-- Snapshots with the numbers after the last one issued, and the source after them. -/
structure Numbered (e : Engine) (start : String) (issued : Nat) (snapshots : List Document)
    (after : IdSource) : Prop where
  ids : snapshots.map (·.get? "snapshot_id") =
    (List.range' (issued + 1) snapshots.length).map fun k =>
      some (.string (e.context.snapshotId start k))
  after_eq : after = .sequential start (issued + snapshots.length)

namespace Numbered
variable {e : Engine} {start : String} {issued : Nat} {snapshots more : List Document}
  {after : IdSource}

theorem nil (e : Engine) (start : String) (issued : Nat) :
    e.Numbered start issued [] (.sequential start issued) := ⟨rfl, rfl⟩

theorem cons (d : Documents) (h : e.Numbered start (issued + 1) snapshots after) :
    e.Numbered start issued
      (e.link (IdSource.sequential start issued).next.1 d :: snapshots) after := by
  constructor
  · rw [List.map_cons, h.ids, get?_link_id, List.length_cons, List.range'_succ, List.map_cons]
    rfl
  · rw [h.after_eq, List.length_cons, Nat.add_assoc, Nat.add_comm 1]

theorem append
    (h : e.Numbered start issued snapshots (.sequential start (issued + snapshots.length)))
    (hmore : e.Numbered start (issued + snapshots.length) more after) :
    e.Numbered start issued (snapshots ++ more) after := by
  have hnext : issued + snapshots.length + 1 = issued + 1 + snapshots.length := by omega
  constructor
  · rw [List.map_append, h.ids, hmore.ids, List.length_append, ← List.map_append, hnext,
      List.range'_append_1]
  · rw [hmore.after_eq, List.length_append, Nat.add_assoc]

end Numbered

/-- Only rows with a snapshot take a number. -/
theorem mapRows_numbered (e : Engine) (start : String) (header : Header) (index : Nat)
    (rows : List Row) (issued : Nat) :
    e.Numbered start issued (e.mapRows header index rows (.sequential start issued)).1.snapshots
      (e.mapRows header index rows (.sequential start issued)).2 := by
  induction rows generalizing index issued with
  | nil => exact .nil e start issued
  | cons row rows ih =>
    rw [mapRows]
    cases e.mapRow header row with
    | skipped => exact ih (index + 1) issued
    | rejected why => exact ih (index + 1) issued
    | accepted d =>
      rw [collect_accepted]
      unfold snapshot? idsAfter
      by_cases hempty : d.secondary.isEmpty = true
      · rw [if_pos hempty, if_pos hempty]
        exact ih (index + 1) issued
      · rw [if_neg hempty, if_neg hempty]
        exact .cons d (ih (index + 1) (issued + 1))

theorem mapTable_numbered (e : Engine) (start : String) (table : Table) (issued : Nat) :
    e.Numbered start issued (e.mapTable table (.sequential start issued)).1.snapshots
      (e.mapTable table (.sequential start issued)).2 := by
  cases table with
  | nil => exact .nil e start issued
  | cons header rows => exact e.mapRows_numbered start _ 1 rows issued

theorem mapTables_numbered (e : Engine) (start : String) (tables : List Table) (issued : Nat) :
    e.Numbered start issued
      ((e.mapTables tables (.sequential start issued)).1.flatMap (·.snapshots))
      (e.mapTables tables (.sequential start issued)).2 := by
  induction tables generalizing issued with
  | nil => exact .nil e start issued
  | cons table tables ih =>
    have htable := e.mapTable_numbered start table issued
    rw [mapTables]
    -- The next table starts with the source that this one leaves behind.
    generalize e.mapTable table (.sequential start issued) = mapped at htable ⊢
    obtain ⟨out, ids⟩ := mapped
    obtain rfl : ids = .sequential start (issued + out.snapshots.length) := htable.after_eq
    exact htable.append (ih (issued + out.snapshots.length))

/-! ### Whole runs -/

/-- The snapshots of a table are those of its accepted rows with secondary data, in their order. -/
def SnapshotsOfTable (e : Engine) (table : Table) (out : Output) : Prop :=
  match table with
  | [] => out.snapshots = []
  | header :: rows => ∃ blanks accepted, e.Accounts header rows out blanks accepted ∧
    List.Forall₂ (fun s a => s.IsSnapshotOf e.context a.documents.primary) out.snapshots
      (accepted.filter fun a => !a.documents.secondary.isEmpty)

theorem snapshotsOfTable_mapTable (e : Engine) (table : Table) (ids : IdSource) :
    e.SnapshotsOfTable table (e.mapTable table ids).1 := by
  cases table with
  | nil => rfl
  | cons header rows =>
    obtain ⟨blanks, accepted, hdivides, hprimary, hsnapshots⟩ :=
      e.mapRows_divides (Header.ofRow header) 1 rows ids
    refine ⟨blanks, accepted, accounts_of_divides hdivides hprimary hsnapshots, ?_⟩
    apply hsnapshots.imp
    rintro s a ⟨id, rfl⟩
    exact e.isSnapshotOf_link id a.documents

theorem snapshotsOfTable_mapTables (e : Engine) (tables : List Table) (ids : IdSource) :
    List.Forall₂ e.SnapshotsOfTable tables (e.mapTables tables ids).1 := by
  induction tables generalizing ids with
  | nil => exact .nil
  | cons table tables ih =>
    exact .cons (e.snapshotsOfTable_mapTable table ids) (ih (e.mapTable table ids).2)

/-- Over any tables, a counter numbers the snapshots through from 1, with no number left out or
given twice, so only rows with a snapshot take one. Each snapshot has the date, the type and the
source of the import, and the entity of the primary document of its row, if that has one. -/
theorem mapTables_snapshots (e : Engine) (tables : List Table) (start : String) :
    let run := e.mapTables tables (.sequential start 0)
    let snapshots := run.1.flatMap (·.snapshots)
    snapshots.map (·.get? "snapshot_id") =
        (List.range' 1 snapshots.length).map (fun k =>
          some (.string (e.context.snapshotId start k))) ∧
      (snapshots.map (·.get? "snapshot_id")).Nodup ∧
      run.2 = .sequential start snapshots.length ∧
      List.Forall₂ e.SnapshotsOfTable tables run.1 := by
  intro run snapshots
  have hnumbered : e.Numbered start 0 snapshots run.2 := e.mapTables_numbered start tables 0
  have hids := hnumbered.ids
  have hafter := hnumbered.after_eq
  rw [Nat.zero_add] at hids hafter
  refine ⟨hids, ?_, hafter, e.snapshotsOfTable_mapTables tables _⟩
  rw [hids]
  apply List.Nodup.map ?_ (List.nodup_range' 1)
  intro m n h
  exact e.context.snapshotId_injective start (Json.string.inj (Option.some.inj h))

end Engine
end TableImport
