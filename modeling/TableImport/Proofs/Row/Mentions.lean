import TableImport.Proofs.Expr.Names
import TableImport.Proofs.Row.Expressions

/-! The values that the expressions of computed fields see on the documents of a row. -/
namespace TableImport
variable {f : ComputedField} {text : String} {places? : Option UInt32} {e : Expr} {v : Value}
  {d : Documents}

namespace Documents

/-- The numbers of all names but those that the scan of a text overlooks. -/
def visible (d : Documents) : Scope :=
  fun path => if Expr.Overlooked path then none else d.resolve path

/-- The names that a text mentions are enough to evaluate its expression. -/
theorem eval_mentioned (hparse : Expr.parse text = .ok e) (d : Documents) :
    Expr.eval (d.scope (Expr.mentioned text)) e = Expr.eval d.visible e := by
  apply Expr.eval_congr
  intro path hpath
  have hmentioned := Expr.mem_mentioned_iff hparse hpath
  unfold scope visible
  by_cases hoverlooked : Expr.Overlooked path
  · have hnot : ¬path ∈ Expr.mentioned text := fun h => hmentioned.mp h hoverlooked
    rw [if_pos hoverlooked, if_neg (by simpa using hnot)]
  · rw [if_neg hoverlooked, if_pos (by simpa using hmentioned.mpr hoverlooked)]

theorem eval_visible (h : ∀ path ∈ e.variableNames, Expr.Overlooked path → d.resolve path = none) :
    Expr.eval d.visible e = Expr.eval d.resolve e := by
  apply Expr.eval_congr
  intro path hpath
  unfold visible
  split
  · next hoverlooked => exact (h path (List.mem_eraseDups.mpr hpath) hoverlooked).symm
  · rfl

end Documents

theorem ComputedField.compute_of_eval (hf : f.formula = .expression text places?)
    (hparse : Expr.parse text = .ok e)
    (heval : Expr.eval (d.scope (Expr.mentioned text)) e = .ok v) :
    f.compute d = v.finite?.map fun x => applyPrecision x places? := by
  have hplaces : f.formula.precision? = places? := by
    rw [hf]
    rfl
  rw [compute, hplaces, hf]
  simp only [Expr.evalText, hparse, heval]
  rfl

namespace CompiledField

/-- A field is the value of its expression, made a finite number and rounded, with each name bound
to its number in the documents, but for names that are functions' and names with a dot at their
end, which have none. Where the documents have no numbers for such names, all are bound. -/
theorem evaluates_visible (hf : f.formula = .expression text places?)
    (hparse : Expr.parse text = .ok e) (d : Documents) : ∃ v, Expr.eval d.visible e = .ok v ∧
      f.compute d = (v.finite?.map fun x => applyPrecision x places?) ∧
      (compile f).evaluate d = (v.finite?.map fun x => applyPrecision x places?) ∧
      ((∀ path ∈ e.variableNames, Expr.Overlooked path → d.resolve path = none) →
        Expr.eval d.resolve e = .ok v) := by
  obtain ⟨v, hv⟩ := Expr.eval_of_parse hparse d.visible
  have heval := (Documents.eval_mentioned hparse d).trans hv
  refine ⟨v, hv, ?_, evaluate_of_eval hf hparse heval, ?_⟩
  · exact ComputedField.compute_of_eval hf hparse heval
  intro hnone
  exact (Documents.eval_visible hnone).symm.trans hv

theorem evaluates_visible_rest :
    let f : ComputedField := ⟨"rest", "rest", .primary, .expression "fans - round" (some 2)⟩
    let e : Expr := .binary .sub (.var "fans") (.var "round")
    f.formula = .expression "fans - round" (some 2) ∧ Expr.parse "fans - round" = .ok e ∧
      ∀ d : Documents, ∃ v, Expr.eval d.visible e = .ok v ∧
        f.compute d = v.finite?.map fun x => applyPrecision x (some 2) := by
  intro f e
  have hparse : Expr.parse "fans - round" = .ok e := by rfl
  refine ⟨rfl, hparse, fun d => ?_⟩
  obtain ⟨v, hv, hcompute, -, -⟩ := evaluates_visible (f := f) rfl hparse d
  exact ⟨v, hv, hcompute⟩

/-- The expression `round` is a name of a value, and the field with this expression does not find
the number that the documents have under it. -/
theorem compute_overlooked :
    let f : ComputedField := ⟨"f", "f", .primary, .expression "round" none⟩
    let d : Documents := ⟨⟨[("round", .float 4.5)]⟩, .empty⟩
    Expr.parse "round" = .ok (.var "round") ∧
      Expr.eval d.resolve (.var "round") = .ok (.number 4.5) ∧
      (Value.number 4.5).finite? = some 4.5 ∧ f.compute d = none ∧
      (compile f).evaluate d = none := by
  intro f d
  have hparse : Expr.parse "round" = .ok (.var "round") := by rfl
  have hresolve : d.resolve "round" = some 4.5 := by decide +kernel
  have hoverlooked : Expr.Overlooked "round" := .inl (by decide +kernel)
  have hvisible : d.visible "round" = none := if_pos hoverlooked
  have heval : Expr.eval (d.scope (Expr.mentioned "round")) (.var "round") = .ok .null := by
    rw [Documents.eval_mentioned hparse, Expr.eval, hvisible]
    rfl
  refine ⟨hparse, ?_, by decide +kernel, ComputedField.compute_of_eval rfl hparse heval,
    evaluate_of_eval rfl hparse heval⟩
  rw [Expr.eval, hresolve]
  rfl

end CompiledField
end TableImport
