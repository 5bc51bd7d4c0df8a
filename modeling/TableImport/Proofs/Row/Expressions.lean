import TableImport.Proofs.Config.Rules
import TableImport.Proofs.Expr.Evaluation
import TableImport.Proofs.Expr.Writing
import TableImport.Proofs.Number.Whole
import TableImport.Row.Reading

/-! The expressions of checked mappings: each is parsed once and has a value on all documents. -/
namespace TableImport

/-- Null and what is not a finite number have none. -/
theorem Value.finite?_eq_none_iff {v : Value} :
    v.finite? = none ↔ v = .null ∨ ∃ x, v = .number x ∧ x.isFinite = false := by
  cases v with
  | number x => simp [finite?, number?]
  | boolean b =>
    have hone : (1 : Float).isFinite = true := by decide
    have hzero : (0 : Float).isFinite = true := by decide
    cases b <;> simp [finite?, number?, hone, hzero]
  | null => simp [finite?, number?]

theorem jsonNumber?_eq_none_iff {x : Float} : jsonNumber? x = none ↔ x.isFinite = false := by
  unfold jsonNumber?
  split
  · next hwhole => simp [(Binary64.isWhole_iff.mp hwhole.1).1]
  · simp

namespace CompiledField
variable {f : ComputedField} {text : String} {places? : Option UInt32} {e : Expr} {v : Value}
  {d : Documents}

/-- Nothing is stored for the field. -/
def Omits (c : CompiledField) (d : Documents) : Prop := (c.evaluate d).bind jsonNumber? = none

theorem Omits.addComputed {c : CompiledField} (h : c.Omits d) : d.addComputed c = d := by
  rw [Documents.addComputed, h]

theorem program_of_parse (hf : f.formula = .expression text places?)
    (hparse : Expr.parse text = .ok e) :
    (compile f).program = .expression e (Expr.mentioned text) := by
  simp only [compile, hf, hparse]

/-- The number of a field is that of its expression's value, rounded. -/
theorem evaluate_of_eval (hf : f.formula = .expression text places?)
    (hparse : Expr.parse text = .ok e)
    (heval : Expr.eval (d.scope (Expr.mentioned text)) e = .ok v) :
    (compile f).evaluate d = v.finite?.map fun x => applyPrecision x places? := by
  have hplaces : (compile f).field.formula.precision? = places? := by
    show f.formula.precision? = places?
    rw [hf]
    rfl
  rw [evaluate, program_of_parse hf hparse]
  simp only [heval, hplaces]
  rfl

theorem omits_iff (hf : f.formula = .expression text places?)
    (hparse : Expr.parse text = .ok e)
    (heval : Expr.eval (d.scope (Expr.mentioned text)) e = .ok v) :
    (compile f).Omits d ↔ (compile f).evaluate d = none ∨
      ∃ x, v.finite? = some x ∧ (applyPrecision x places?).isFinite = false := by
  rw [Omits, evaluate_of_eval hf hparse heval]
  cases v.finite? with
  | none => simp
  | some x => simp [jsonNumber?_eq_none_iff]

end CompiledField

namespace Mapping
variable {m : Mapping}

theorem parse_of_check (h : m.check = .ok ()) {f : ComputedField} (hf : f ∈ m.computedFields)
    {text : String} {places? : Option UInt32} (hformula : f.formula = .expression text places?) :
    ∃ e, Expr.parse text = .ok e := by
  obtain ⟨-, hfields⟩ := Fallible.andThen_eq_ok_iff.mp h
  have hsyntax : f.syntaxFault? = none := validateFields_eq_ok_iff.mp hfields f hf
  cases hparse : Expr.parse text with
  | ok e => exact ⟨e, rfl⟩
  | error err => simp [ComputedField.syntaxFault?, hformula, Expr.check, hparse] at hsyntax

/-- The expressions of a checked mapping are compiled, and none of them fails on any documents: a
field is left out only because its value is null or no finite number, before rounding or after it.
This holds since every text that is parsed can be evaluated, whatever values are missing. -/
theorem evaluates_of_check (h : m.check = .ok ()) :
    (∀ f ∈ m.computedFields, ∀ text places?, f.formula = .expression text places? →
      ∃ e, Expr.parse text = .ok e ∧
        (CompiledField.compile f).program = .expression e (Expr.mentioned text) ∧
        ∀ d : Documents, ∃ v, Expr.eval (d.scope (Expr.mentioned text)) e = .ok v ∧
          ((CompiledField.compile f).evaluate d = none ↔
            v = .null ∨ ∃ x, v = .number x ∧ x.isFinite = false) ∧
          ((CompiledField.compile f).Omits d ↔ (CompiledField.compile f).evaluate d = none ∨
            ∃ x, v.finite? = some x ∧ (applyPrecision x places?).isFinite = false)) ∧
      ∀ text e, Expr.parse text = .ok e → ∀ scope, ∃ v, Expr.eval scope e = .ok v := by
  constructor
  · intro f hf text places? hformula
    obtain ⟨e, hparse⟩ := parse_of_check h hf hformula
    refine ⟨e, hparse, CompiledField.program_of_parse hformula hparse, ?_⟩
    intro d
    obtain ⟨v, hv⟩ := Expr.eval_of_parse hparse (d.scope (Expr.mentioned text))
    refine ⟨v, hv, ?_, CompiledField.omits_iff hformula hparse hv⟩
    rw [CompiledField.evaluate_of_eval hformula hparse hv, Option.map_eq_none_iff]
    exact Value.finite?_eq_none_iff
  · intro text e hparse scope
    exact Expr.eval_of_parse hparse scope

/-- The expression `MAX(prices.video, cost) - fee`. -/
def marginExpr : Expr :=
  .binary .sub (.call "MAX" [.var "prices.video", .var "cost"]) (.var "fee")

def margin : Mapping :=
  ⟨"sheet", "margin", [.ofPrice "Video" "video", { header := "Cost", path := "cost" }],
    [⟨"margin", "fees.margin", .primary, .expression marginExpr.text (some 2)⟩]⟩

theorem check_margin : margin.check = .ok () := by
  have hlegible : marginExpr.Legible := by
    refine .binary (.call ⟨'M', ['A', 'X'], rfl, by decide, by simp⟩ ?_)
      (.var ⟨'f', ['e', 'e'], rfl, by decide, by simp⟩)
    intro a ha
    rcases List.mem_cons.mp ha with rfl | ha
    · exact .var ⟨'p', ['r', 'i', 'c', 'e', 's', '.', 'v', 'i', 'd', 'e', 'o'], rfl, by decide,
        by simp⟩
    · obtain rfl := List.mem_singleton.mp ha
      exact .var ⟨'c', ['o', 's', 't'], rfl, by decide, by simp⟩
  have hlookup : Function.lookup? "MAX" = some .max := by
    rw [Expr.lookup?_eq_some_iff, ← String.toList_inj, String.toList_map]
    decide
  obtain ⟨e, hback⟩ : ∃ e, marginExpr.readBack? = some e := by
    refine ⟨.binary .sub (.call "max" [.var "prices.video", .var "cost"]) (.var "fee"), ?_⟩
    simp only [marginExpr, Expr.readBack?, Expr.call?, hlookup]
    rfl
  have hparse := hlegible.parse_eq_ok hback
  refine Fallible.andThen_eq_ok_iff.mpr ⟨rfl, ?_⟩
  refine validateFields_eq_ok_iff.mpr ?_
  intro f hf
  obtain rfl := List.mem_singleton.mp hf
  simp only [ComputedField.syntaxFault?, Expr.check, hparse]
  rfl

theorem evaluates_of_check_margin : margin.check = .ok () ∧
    ∃ e, Expr.parse marginExpr.text = .ok e ∧ ∀ d : Documents, ∃ v,
      Expr.eval (d.scope (Expr.mentioned marginExpr.text)) e = .ok v ∧
        ((CompiledField.compile ⟨"margin", "fees.margin", .primary,
          .expression marginExpr.text (some 2)⟩).evaluate d = none ↔
            v = .null ∨ ∃ x, v = .number x ∧ x.isFinite = false) := by
  obtain ⟨e, hparse, -, hvalues⟩ :=
    (evaluates_of_check check_margin).1 _ (List.mem_singleton_self _) _ _ rfl
  refine ⟨check_margin, e, hparse, ?_⟩
  intro d
  obtain ⟨v, hv, hnone, -⟩ := hvalues d
  exact ⟨v, hv, hnone⟩

end Mapping
end TableImport
