import Mathlib.Data.List.Forall2
import TableImport.Proofs.Row.Tables

/-! Two engines over two tables, row by row. Where the outcomes of the rows correspond one to one,
so do the outputs, and the engines take the same identifiers. -/
namespace TableImport

section
variable (documents : Document → Document → Prop) (reasons : Rejection → Rejection → Prop)
  (rows : Row → Row → Prop)

/-- Two rows with the same fate under their engines. Accepted ones have related primary documents,
and the same snapshot for every identifier. -/
inductive RowOutcome.Corresponds (e e' : Engine) : RowOutcome → RowOutcome → Prop where
  | skipped : Corresponds e e' .skipped .skipped
  | rejected {why why' : Rejection} (h : reasons why why') :
      Corresponds e e' (.rejected why) (.rejected why')
  | accepted {d d' : Documents} (hprimary : documents d.primary d'.primary)
      (hempty : d.secondary.isEmpty = d'.secondary.isEmpty)
      (hlink : ∀ id, e.link id d = e'.link id d') :
      Corresponds e e' (.accepted d) (.accepted d')

theorem RowOutcome.Corresponds.refl (e : Engine) (outcome : RowOutcome) :
    outcome.Corresponds Eq Eq e e outcome := by
  cases outcome with
  | skipped => exact .skipped
  | rejected why => exact .rejected rfl
  | accepted d => exact .accepted rfl rfl fun _ => rfl

/-- Related rows, rejected at the same position for related reasons. -/
structure RejectedRow.Corresponds (r r' : RejectedRow) : Prop where
  index : r.index = r'.index
  why : reasons r.why r'.why
  row : rows r.row r'.row

/-- Documents and rejected rows that correspond one to one, and the same snapshots. -/
structure Output.Corresponds (out out' : Output) : Prop where
  accepted : List.Forall₂ documents out.accepted out'.accepted
  snapshots : out.snapshots = out'.snapshots
  rejected : List.Forall₂ (RejectedRow.Corresponds reasons rows) out.rejected out'.rejected

end

/-- Rows that are changed and rejected as before are those that were rejected, changed. -/
theorem RejectedRow.eq_map_of_corresponds {f : Row → Row} {rejected rejected' : List RejectedRow}
    (h : List.Forall₂ (RejectedRow.Corresponds Eq fun row row' => row' = f row)
      rejected rejected') :
    rejected' = rejected.map fun r => { r with row := f r.row } := by
  induction h with
  | nil => rfl
  | @cons r r' _ _ hrow _ ih =>
    obtain ⟨index, row, why⟩ := r
    obtain ⟨index', row', why'⟩ := r'
    obtain ⟨rfl, rfl, rfl⟩ := hrow
    rw [List.map_cons, ih]

namespace Engine
variable {documents : Document → Document → Prop} {reasons : Rejection → Rejection → Prop}
  {rows : Row → Row → Prop} {e e' : Engine}

theorem collect_corresponds (index : Nat) {row row' : Row} (hrow : rows row row')
    {outcome outcome' : RowOutcome} (h : outcome.Corresponds documents reasons e e' outcome')
    (ids : IdSource) {rest rest' : IdSource → Output × IdSource}
    (hrest : ∀ ids, (rest ids).1.Corresponds documents reasons rows (rest' ids).1 ∧
      (rest ids).2 = (rest' ids).2) :
    (e.collect index row outcome ids rest).1.Corresponds documents reasons rows
        (e'.collect index row' outcome' ids rest').1 ∧
      (e.collect index row outcome ids rest).2 = (e'.collect index row' outcome' ids rest').2 := by
  cases h with
  | skipped => exact hrest ids
  | rejected hwhy =>
    obtain ⟨hout, hids⟩ := hrest ids
    exact ⟨⟨hout.accepted, hout.snapshots, .cons ⟨rfl, hwhy, hrow⟩ hout.rejected⟩, hids⟩
  | @accepted d d' hprimary hempty hlink =>
    have hafter : idsAfter ids d = idsAfter ids d' := by
      unfold idsAfter
      rw [hempty]
    have hsnapshot : e.snapshot? ids d = e'.snapshot? ids d' := by
      unfold snapshot?
      rw [hempty, hlink]
    obtain ⟨hout, hids⟩ := hrest (idsAfter ids d')
    rw [collect_accepted, collect_accepted, hafter, hsnapshot]
    constructor
    · refine ⟨.cons hprimary hout.accepted, ?_, hout.rejected⟩
      exact congrArg ((e'.snapshot? ids d').toList ++ ·) hout.snapshots
    · exact hids

theorem mapRows_corresponds {header header' : Header} {data data' : List Row}
    (h : List.Forall₂ (fun row row' => rows row row' ∧
      (e.mapRow header row).Corresponds documents reasons e e' (e'.mapRow header' row')) data data')
    (index : Nat) (ids : IdSource) :
    (e.mapRows header index data ids).1.Corresponds documents reasons rows
        (e'.mapRows header' index data' ids).1 ∧
      (e.mapRows header index data ids).2 = (e'.mapRows header' index data' ids).2 := by
  induction h generalizing index ids with
  | nil => exact ⟨⟨.nil, rfl, .nil⟩, rfl⟩
  | cons hrow _ ih => exact collect_corresponds index hrow.1 hrow.2 ids (ih (index + 1))

end Engine
end TableImport
