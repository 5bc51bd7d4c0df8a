import TableImport.Proofs.Table.Detection
import TableImport.Proofs.Row.Obtained
import TableImport.Proofs.Row.Tables

/-! Tables with and without detected numbers are mapped to the same documents. -/
namespace TableImport

variable {row row' : Row}

/-- A row rejected at the same position for the same reason, but for detected numbers in it. -/
structure RejectedRow.Detected (r r' : RejectedRow) : Prop where
  index : r.index = r'.index
  why : r.why = r'.why
  row : List.Forall₂ Cell.Detected r.row r'.row

/-- The same documents, and rows rejected alike. -/
structure Output.Detected (out out' : Output) : Prop where
  accepted : out.accepted = out'.accepted
  snapshots : out.snapshots = out'.snapshots
  rejected : List.Forall₂ RejectedRow.Detected out.rejected out'.rejected

namespace Engine
variable (e : Engine)

/-- Outputs with the same documents, after which the identifiers go on alike. -/
def Alike (x y : Output × IdSource) : Prop := x.1.Detected y.1 ∧ x.2 = y.2

variable {e}

theorem Alike.empty (ids : IdSource) : Alike (.empty, ids) (.empty, ids) :=
  ⟨⟨rfl, rfl, .nil⟩, rfl⟩

theorem Alike.collect (index : Nat) (h : List.Forall₂ Cell.Detected row row')
    (outcome : RowOutcome) (ids : IdSource) {rest rest' : IdSource → Output × IdSource}
    (hrest : ∀ ids, Alike (rest ids) (rest' ids)) :
    Alike (e.collect index row outcome ids rest) (e.collect index row' outcome ids rest') := by
  cases outcome with
  | skipped => exact hrest ids
  | rejected why =>
    obtain ⟨hout, hids⟩ := hrest ids
    exact ⟨⟨hout.accepted, hout.snapshots, .cons ⟨rfl, rfl, h⟩ hout.rejected⟩, hids⟩
  | accepted d =>
    obtain ⟨hout, hids⟩ := hrest (idsAfter ids d)
    rw [collect_accepted, collect_accepted]
    refine ⟨⟨?_, ?_, hout.rejected⟩, hids⟩
    · exact congrArg (d.primary :: ·) hout.accepted
    · exact congrArg ((e.snapshot? ids d).toList ++ ·) hout.snapshots

end Engine
end TableImport
