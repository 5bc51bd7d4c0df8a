import Mathlib.Data.List.Forall2
import TableImport.Proofs.Row.Classification
import TableImport.Proofs.Row.Tables

/-! Every data row is accounted for once: it is blank, rejected or accepted, and the output holds
the rejected and the accepted ones in the order of their rows. -/
namespace TableImport

/-- An accepted row with its position in the table and its documents. -/
structure AcceptedRow where
  index : Nat
  row : Row
  documents : Documents

namespace Engine
variable {e : Engine} {header : Header} {row : Row} {rows : List Row} {index : Nat}

theorem mapRow_eq_skipped_iff : e.mapRow header row = .skipped ↔ row.isBlank = true := by
  unfold mapRow
  cases row.isBlank with
  | true => simp
  | false =>
    cases Obtained.none.addAll e.period header row e.rules with
    | error name => simp
    | ok o => cases hempty : o.isEmpty <;> simp [hempty]

theorem not_isBlank {outcome : RowOutcome} (h : e.mapRow header row = outcome)
    (hne : outcome ≠ .skipped) : ¬row.isBlank = true := by
  intro hblank
  exact hne (h.symm.trans (mapRow_eq_skipped_iff.mpr hblank))

/-- Data rows, the first of which has the given position, divided into the positions of the blank
ones, the rejected ones and the accepted ones. -/
inductive Divides (e : Engine) (header : Header) :
    Nat → List Row → List Nat → List RejectedRow → List AcceptedRow → Prop where
  | nil {index : Nat} : Divides e header index [] [] [] []
  | blank {index : Nat} {row : Row} {rows : List Row} {blanks : List Nat}
      {rejected : List RejectedRow} {accepted : List AcceptedRow}
      (hrow : e.mapRow header row = .skipped)
      (h : Divides e header (index + 1) rows blanks rejected accepted) :
      Divides e header index (row :: rows) (index :: blanks) rejected accepted
  | rejected {index : Nat} {row : Row} {rows : List Row} {blanks : List Nat}
      {rejected : List RejectedRow} {accepted : List AcceptedRow} {why : Rejection}
      (hrow : e.mapRow header row = .rejected why)
      (h : Divides e header (index + 1) rows blanks rejected accepted) :
      Divides e header index (row :: rows) blanks (⟨index, row, why⟩ :: rejected) accepted
  | accepted {index : Nat} {row : Row} {rows : List Row} {blanks : List Nat}
      {rejected : List RejectedRow} {accepted : List AcceptedRow} {d : Documents}
      (hrow : e.mapRow header row = .accepted d)
      (h : Divides e header (index + 1) rows blanks rejected accepted) :
      Divides e header index (row :: rows) blanks rejected (⟨index, row, d⟩ :: accepted)

namespace Divides
variable {blanks : List Nat} {rejected : List RejectedRow} {accepted : List AcceptedRow}

/-- No position is lost, and none is given twice. -/
theorem perm_range (h : e.Divides header index rows blanks rejected accepted) :
    (blanks ++ (rejected.map (·.index) ++ accepted.map (·.index))).Perm
      (List.range' index rows.length) := by
  induction h with
  | nil => exact .refl _
  | blank _ _ ih => exact ih.cons _
  | rejected _ _ ih => exact List.perm_middle.trans (ih.cons _)
  | @accepted index _ _ blanks rejected accepted _ _ _ ih =>
    rw [← List.append_assoc] at ih
    rw [List.map_cons, ← List.append_assoc]
    exact List.perm_middle.trans (ih.cons index)

theorem length_blanks (h : e.Divides header index rows blanks rejected accepted) :
    blanks.length = rows.countP Row.isBlank := by
  induction h with
  | nil => rfl
  | blank hrow _ ih =>
    rw [List.countP_cons_of_pos (mapRow_eq_skipped_iff.mp hrow), List.length_cons, ih]
  | rejected hrow _ ih =>
    rw [List.countP_cons_of_neg (not_isBlank hrow nofun), ih]
  | accepted hrow _ ih =>
    rw [List.countP_cons_of_neg (not_isBlank hrow nofun), ih]

theorem blank_of_mem (h : e.Divides header index rows blanks rejected accepted) {i : Nat}
    (hi : i ∈ blanks) : ∃ row, (row, i) ∈ rows.zipIdx index ∧ row.isBlank = true := by
  induction h with
  | nil => cases hi
  | @blank index row rows _ _ _ hrow _ ih =>
    rw [List.zipIdx_cons]
    cases hi with
    | head => exact ⟨row, List.mem_cons_self, mapRow_eq_skipped_iff.mp hrow⟩
    | tail _ hi =>
      obtain ⟨row', hmem, hblank⟩ := ih hi
      exact ⟨row', List.mem_cons_of_mem _ hmem, hblank⟩
  | rejected _ _ ih | accepted _ _ ih =>
    obtain ⟨row', hmem, hblank⟩ := ih hi
    exact ⟨row', List.mem_cons_of_mem _ hmem, hblank⟩

/-- The rejected rows are rows of the table at their positions, in the same order. -/
theorem rejected_sublist (h : e.Divides header index rows blanks rejected accepted) :
    (rejected.map fun r => (r.row, r.index)).Sublist (rows.zipIdx index) := by
  induction h with
  | nil => exact .refl _
  | rejected _ _ ih => exact ih.cons_cons _
  | blank _ _ ih | accepted _ _ ih => exact ih.cons _

theorem accepted_sublist (h : e.Divides header index rows blanks rejected accepted) :
    (accepted.map fun a => (a.row, a.index)).Sublist (rows.zipIdx index) := by
  induction h with
  | nil => exact .refl _
  | accepted _ _ ih => exact ih.cons_cons _
  | blank _ _ ih | rejected _ _ ih => exact ih.cons _

theorem mapRow_of_mem_rejected (h : e.Divides header index rows blanks rejected accepted) :
    ∀ r ∈ rejected, e.mapRow header r.row = .rejected r.why := by
  induction h with
  | nil => simp
  | rejected hrow _ ih => exact List.forall_mem_cons.mpr ⟨hrow, ih⟩
  | blank _ _ ih | accepted _ _ ih => exact ih

theorem mapRow_of_mem_accepted (h : e.Divides header index rows blanks rejected accepted) :
    ∀ a ∈ accepted, e.mapRow header a.row = .accepted a.documents := by
  induction h with
  | nil => simp
  | accepted hrow _ ih => exact List.forall_mem_cons.mpr ⟨hrow, ih⟩
  | blank _ _ ih | rejected _ _ ih => exact ih

end Divides

/-- The snapshots of a table are those of its accepted rows with secondary data. -/
def SnapshotsOf (e : Engine) (snapshots : List Document) (accepted : List AcceptedRow) : Prop :=
  List.Forall₂ (fun s a => ∃ id, s = e.link id a.documents) snapshots
    (accepted.filter fun a => !a.documents.secondary.isEmpty)

theorem SnapshotsOf.cons {snapshots : List Document} {accepted : List AcceptedRow}
    (h : e.SnapshotsOf snapshots accepted) (index : Nat) (row : Row) (ids : IdSource)
    (d : Documents) :
    e.SnapshotsOf ((e.snapshot? ids d).toList ++ snapshots) (⟨index, row, d⟩ :: accepted) := by
  unfold SnapshotsOf at h ⊢
  unfold snapshot?
  cases hempty : d.secondary.isEmpty with
  | true => simpa [hempty] using h
  | false => simpa [hempty] using ⟨⟨_, rfl⟩, h⟩

/-- What the output says of the rows is how they divide. -/
theorem mapRows_divides (e : Engine) (header : Header) (index : Nat) (rows : List Row)
    (ids : IdSource) : ∃ blanks accepted,
      e.Divides header index rows blanks (e.mapRows header index rows ids).1.rejected accepted ∧
      (e.mapRows header index rows ids).1.accepted = accepted.map (·.documents.primary) ∧
      e.SnapshotsOf (e.mapRows header index rows ids).1.snapshots accepted := by
  induction rows generalizing index ids with
  | nil => exact ⟨[], [], .nil, rfl, .nil⟩
  | cons row rows ih =>
    rw [mapRows]
    cases hrow : e.mapRow header row with
    | skipped =>
      obtain ⟨blanks, accepted, hdivides, hprimary, hsnapshots⟩ := ih (index + 1) ids
      exact ⟨index :: blanks, accepted, .blank hrow hdivides, hprimary, hsnapshots⟩
    | rejected why =>
      obtain ⟨blanks, accepted, hdivides, hprimary, hsnapshots⟩ := ih (index + 1) ids
      exact ⟨blanks, accepted, .rejected hrow hdivides, hprimary, hsnapshots⟩
    | accepted d =>
      obtain ⟨blanks, accepted, hdivides, hprimary, hsnapshots⟩ := ih (index + 1) (idsAfter ids d)
      rw [collect_accepted]
      exact ⟨blanks, ⟨index, row, d⟩ :: accepted, .accepted hrow hdivides,
        congrArg (d.primary :: ·) hprimary, hsnapshots.cons index row ids d⟩

/-- The data rows of a table against its output: where the blank rows are, and which rows are
accepted. Positions are those in the table, where the header row is 0. -/
structure Accounts (e : Engine) (header : Row) (rows : List Row) (out : Output)
    (blanks : List Nat) (accepted : List AcceptedRow) : Prop where
  once : (blanks ++ (out.rejected.map (·.index) ++ accepted.map (·.index))).Perm
    (List.range' 1 rows.length)
  blank : ∀ i ∈ blanks, ∃ row, (header :: rows)[i]? = some row ∧ row.isBlank = true
  rejected_rows : ∀ r ∈ out.rejected, (header :: rows)[r.index]? = some r.row ∧
    ¬r.row.isBlank = true ∧ e.mapRow (Header.ofRow header) r.row = .rejected r.why
  rejected_ascending : (out.rejected.map (·.index)).Pairwise (· < ·)
  accepted_rows : ∀ a ∈ accepted, (header :: rows)[a.index]? = some a.row ∧
    ¬a.row.isBlank = true ∧ e.mapRow (Header.ofRow header) a.row = .accepted a.documents
  accepted_ascending : (accepted.map (·.index)).Pairwise (· < ·)
  documents : out.accepted = accepted.map (·.documents.primary)
  snapshots : e.SnapshotsOf out.snapshots accepted

end Engine

/-- Data rows with their positions are rows of the table at these positions. -/
theorem Table.getElem?_of_mem_zipIdx {header row : Row} {rows : List Row} {i : Nat}
    (h : (row, i) ∈ rows.zipIdx 1) : (header :: rows)[i]? = some row := by
  have hmem : (row, i) ∈ (header :: rows).zipIdx := by
    rw [List.zipIdx_cons]
    exact List.mem_cons_of_mem _ h
  exact List.mk_mem_zipIdx_iff_getElem?.mp hmem

/-- Rows in the order of a table have ascending positions. -/
theorem Table.ascending_of_sublist {α : Type} {f : α → Row} {position : α → Nat} {rows : List Row}
    {as : List α} (h : (as.map fun a => (f a, position a)).Sublist (rows.zipIdx 1)) :
    (as.map position).Pairwise (· < ·) := by
  have hpositions := h.map Prod.snd
  rw [List.map_map, List.zipIdx_map_snd] at hpositions
  exact List.Pairwise.sublist hpositions List.pairwise_lt_range'

namespace Engine

theorem accounts_of_divides {e : Engine} {header : Row} {rows : List Row} {out : Output}
    {blanks : List Nat} {accepted : List AcceptedRow}
    (h : e.Divides (Header.ofRow header) 1 rows blanks out.rejected accepted)
    (hprimary : out.accepted = accepted.map (·.documents.primary))
    (hsnapshots : e.SnapshotsOf out.snapshots accepted) :
    e.Accounts header rows out blanks accepted where
  once := h.perm_range
  blank i hi := by
    obtain ⟨row, hmem, hblank⟩ := h.blank_of_mem hi
    exact ⟨row, Table.getElem?_of_mem_zipIdx hmem, hblank⟩
  rejected_rows r hr := by
    have hrow := h.mapRow_of_mem_rejected r hr
    have hmem := h.rejected_sublist.subset (List.mem_map_of_mem hr)
    exact ⟨Table.getElem?_of_mem_zipIdx hmem, not_isBlank hrow nofun, hrow⟩
  rejected_ascending := Table.ascending_of_sublist h.rejected_sublist
  accepted_rows a ha := by
    have hrow := h.mapRow_of_mem_accepted a ha
    have hmem := h.accepted_sublist.subset (List.mem_map_of_mem ha)
    exact ⟨Table.getElem?_of_mem_zipIdx hmem, not_isBlank hrow nofun, hrow⟩
  accepted_ascending := Table.ascending_of_sublist h.accepted_sublist
  documents := hprimary
  snapshots := hsnapshots

/-- The rows in an output are rejected for a rule without a value or for want of data. -/
theorem why_of_mem_rejected {e : Engine} {table : Table} {ids : IdSource} {r : RejectedRow}
    (hr : r ∈ (e.mapTable table ids).1.rejected) :
    (∃ s ∈ e.rules, r.why = .missingRequired s.header) ∨ r.why = .noData := by
  cases table with
  | nil => cases hr
  | cons header rows =>
    obtain ⟨_, _, hdivides, -, -⟩ := e.mapRows_divides (Header.ofRow header) 1 rows ids
    exact why_of_mapRow (hdivides.mapRow_of_mem_rejected r hr)

/-- Every data row is blank, rejected or accepted, and only one of these; an empty table has an
empty output. -/
theorem mapTable_accounts (e : Engine) (ids : IdSource) :
    e.mapTable [] ids = (.empty, ids) ∧ ∀ header rows,
      let out := (e.mapTable (header :: rows) ids).1
      (∃ blanks accepted, e.Accounts header rows out blanks accepted) ∧
      out.accepted.length + out.rejected.length + rows.countP Row.isBlank =
        (header :: rows).length - 1 := by
  refine ⟨rfl, fun header rows => ?_⟩
  obtain ⟨blanks, accepted, hdivides, hprimary, hsnapshots⟩ :=
    e.mapRows_divides (Header.ofRow header) 1 rows ids
  have hlength := hdivides.perm_range.length_eq
  rw [List.length_range', List.length_append, hdivides.length_blanks] at hlength
  refine ⟨⟨blanks, accepted, accounts_of_divides hdivides hprimary hsnapshots⟩, ?_⟩
  show (e.mapRows (Header.ofRow header) 1 rows ids).1.accepted.length + _ + _ = _
  rw [hprimary]
  simp only [List.length_append, List.length_map, List.length_cons, mapTable] at hlength ⊢
  omega

end Engine
end TableImport
