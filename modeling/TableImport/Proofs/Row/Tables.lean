import TableImport.Row.Engine

/-! The output of a table as those of its rows, one after another. -/
namespace TableImport

/-- The output of some rows and then that of others. -/
def Output.append (a b : Output) : Output :=
  ⟨a.accepted ++ b.accepted, a.rejected ++ b.rejected, a.snapshots ++ b.snapshots⟩

instance : Append Output := ⟨Output.append⟩

theorem Output.accepted_append (a b : Output) : (a ++ b).accepted = a.accepted ++ b.accepted := rfl

theorem Output.rejected_append (a b : Output) : (a ++ b).rejected = a.rejected ++ b.rejected := rfl

theorem Output.snapshots_append (a b : Output) :
    (a ++ b).snapshots = a.snapshots ++ b.snapshots := rfl

namespace Engine

theorem collect_append (e : Engine) (index : Nat) (row : Row) (outcome : RowOutcome)
    (ids : IdSource) (f g : IdSource → Output × IdSource) :
    e.collect index row outcome ids (fun ids => ((f ids).1 ++ (g (f ids).2).1, (g (f ids).2).2)) =
      ((e.collect index row outcome ids f).1 ++ (g (e.collect index row outcome ids f).2).1,
        (g (e.collect index row outcome ids f).2).2) := by
  cases outcome with
  | skipped => rfl
  | rejected why => rfl
  | accepted d =>
    unfold collect
    simp only
    split
    · rfl
    · rfl

/-- Rows can be mapped in two parts, with the identifiers going on from the first to the second. -/
theorem mapRows_append (e : Engine) (header : Header) (index : Nat) (rows rows' : List Row)
    (ids : IdSource) :
    e.mapRows header index (rows ++ rows') ids =
      ((e.mapRows header index rows ids).1 ++
          (e.mapRows header (index + rows.length) rows' (e.mapRows header index rows ids).2).1,
        (e.mapRows header (index + rows.length) rows' (e.mapRows header index rows ids).2).2) := by
  induction rows generalizing index ids with
  | nil => rfl
  | cons row rows ih =>
    have hindex : index + (row :: rows).length = index + 1 + rows.length := by
      rw [List.length_cons]
      omega
    have hrest : e.mapRows header (index + 1) (rows ++ rows') = fun ids =>
        ((e.mapRows header (index + 1) rows ids).1 ++
            (e.mapRows header (index + 1 + rows.length) rows'
              (e.mapRows header (index + 1) rows ids).2).1,
          (e.mapRows header (index + 1 + rows.length) rows'
            (e.mapRows header (index + 1) rows ids).2).2) := by
      funext ids
      exact ih (index + 1) ids
    rw [List.cons_append, mapRows, mapRows, hrest, hindex]
    exact e.collect_append index row _ ids (e.mapRows header (index + 1) rows)
      (e.mapRows header (index + 1 + rows.length) rows')

/-- The snapshot of a row whose documents are complete, if it has secondary data. -/
def snapshot? (e : Engine) (ids : IdSource) (d : Documents) : Option Document :=
  if d.secondary.isEmpty then none else some (e.link ids.next.1 d)

/-- Rows take identifiers only for their snapshots. -/
def idsAfter (ids : IdSource) (d : Documents) : IdSource :=
  if d.secondary.isEmpty then ids else ids.next.2

/-- An accepted row adds its primary document and its snapshot, if there is one. -/
theorem collect_accepted (e : Engine) (index : Nat) (row : Row) (d : Documents) (ids : IdSource)
    (rest : IdSource → Output × IdSource) :
    e.collect index row (.accepted d) ids rest =
      (⟨d.primary :: (rest (idsAfter ids d)).1.accepted, (rest (idsAfter ids d)).1.rejected,
        (e.snapshot? ids d).toList ++ (rest (idsAfter ids d)).1.snapshots⟩,
        (rest (idsAfter ids d)).2) := by
  unfold collect snapshot? idsAfter
  by_cases hempty : d.secondary.isEmpty = true
  · simp only [if_pos hempty]
    rfl
  · simp only [if_neg hempty]
    rfl

/-- Where the documents of an accepted row stand in the output of its table. -/
theorem mapTable_of_accepted {e : Engine} {header row : Row} {d : Documents}
    (h : e.mapRow (Header.ofRow header) row = .accepted d) (before after : List Row)
    (ids : IdSource) :
    ∃ ids₁, let last := (e.mapRows (Header.ofRow header) (before.length + 2) after
        (e.mapTable (header :: (before ++ [row])) ids).2).1
      (e.mapTable (header :: (before ++ row :: after)) ids).1.accepted =
        (e.mapTable (header :: before) ids).1.accepted ++ d.primary :: last.accepted ∧
      (e.mapTable (header :: (before ++ row :: after)) ids).1.snapshots =
        (e.mapTable (header :: before) ids).1.snapshots ++
          ((e.snapshot? ids₁ d).toList ++ last.snapshots) := by
  have hindex : 1 + before.length + 1 = before.length + 2 := by omega
  refine ⟨(e.mapRows (Header.ofRow header) 1 before ids).2, ?_, ?_⟩
  · simp only [mapTable, mapRows_append, mapRows, h, hindex, Output.accepted_append,
      collect_accepted]
  · simp only [mapTable, mapRows_append, mapRows, h, hindex, Output.snapshots_append,
      collect_accepted]

end Engine
end TableImport
