import TableImport.Proofs.Config.Rules
import TableImport.Proofs.Text.Trimming

/-! The laws of mappings, and that validation accepts exactly the mappings that obey them. -/
namespace TableImport

theorem isBlankText_eq_false_iff {s : String} :
    isBlankText s = false ↔ trimChars s.toList ≠ [] := by
  rw [Bool.eq_false_iff, ne_eq, isBlankText_iff]

theorem trim_eq_empty_iff {s : String} : trim s = "" ↔ trimChars s.toList = [] := by
  rw [← String.toList_inj, toList_trim, String.toList_empty]

namespace Path
variable {path : String}

theorem splitOn_eq_cut (cs : List Char) : cs.splitOn '.' = (cut cs).1 :: (cut cs).2 := by
  induction cs with
  | nil => rfl
  | cons c cs ih =>
    have hcons := List.splitOnP_cons_eq_if_modifyHead (p := (· == '.')) c cs
    unfold List.splitOn at ih ⊢
    rw [hcons, ih, cut]
    by_cases hdot : c = '.'
    · simp [hdot]
    · simp [hdot]

/-- The segments of a path are the texts between its dots. -/
theorem segments_eq_splitOn (path : String) :
    segments path = (path.toList.splitOn '.').map String.ofList := by
  rw [splitOn_eq_cut]
  rfl

theorem hasEmptySegment_eq_false_iff :
    hasEmptySegment path = false ↔ [] ∉ path.toList.splitOn '.' := by
  rw [hasEmptySegment, segments_eq_splitOn, List.any_map, List.any_eq_false]
  constructor
  · intro h hmem
    exact h [] hmem rfl
  · intro h s hs hempty
    obtain rfl : s = [] := by simpa using hempty
    exact h hs

theorem hasBlankSegment_eq_false_iff :
    hasBlankSegment path = false ↔ ∀ s ∈ path.toList.splitOn '.', trimChars s ≠ [] := by
  simp [hasBlankSegment, segments_eq_splitOn, isBlankText_eq_false_iff]

end Path

theorem underPrices_iff {path : String} :
    underPrices path = true ↔ (path.toList.splitOn '.').head? = some pricesKey.toList := by
  rw [underPrices, beq_iff_eq, Path.first, ← String.toList_inj, String.toList_ofList,
    Path.splitOn_eq_cut, List.head?_cons, Option.some.injEq]

/-- The laws for a rule by itself. In the primary collection the list of prices and all paths below
it belong to the rules with a kind of price, and these rules go nowhere else. -/
structure Rule.WellFormed (r : Rule) : Prop where
  header : trim r.header ≠ ""
  path : trim r.path ≠ ""
  segments : [] ∉ r.path.toList.splitOn '.'
  reserved : r.collection = .primary → r.path ≠ pricesKey →
    (r.path.toList.splitOn '.').head? ≠ some pricesKey.toList
  of_kind : ∀ kind, r.priceKind? = some kind → r.collection = .primary ∧ r.path = pricesKey
  kind : r.collection = .primary → r.path = pricesKey →
    ∃ kind, r.priceKind? = some kind ∧ trim kind ≠ ""

theorem Rule.fault?_eq_none_iff_wellFormed {r : Rule} : r.fault? = none ↔ r.WellFormed := by
  rw [fault?_eq_none_iff]
  simp only [Path.isBlank, isBlankText_eq_false_iff, ne_eq, ← trim_eq_empty_iff,
    Path.hasEmptySegment_eq_false_iff, underPrices_iff, Option.isSome_iff_exists]
  constructor
  · rintro ⟨hheader, hpath, hsegments, hreserved, hof, hkind⟩
    refine ⟨hheader, hpath, hsegments, fun hc hne hfirst => hne (hreserved hc hfirst), ?_, ?_⟩
    · intro kind hsome
      exact (hof ⟨kind, hsome⟩).symm
    · intro hc hprices
      exact hkind hprices hc
  · intro h
    refine ⟨h.header, h.path, h.segments, ?_, ?_, fun hprices hc => h.kind hc hprices⟩
    · intro hc hfirst
      by_contra hne
      exact h.reserved hc hne hfirst
    · rintro ⟨kind, hsome⟩
      exact (h.of_kind kind hsome).symm

/-- The laws for a computed field. -/
structure ComputedField.WellFormed (f : ComputedField) : Prop where
  name : trim f.name ≠ ""
  segments : ∀ s ∈ f.path.toList.splitOn '.', trimChars s ≠ []
  reserved : f.collection = .primary →
    (f.path.toList.splitOn '.').head? ≠ some pricesKey.toList
  expression : ∀ text precision?, f.formula = .expression text precision? → trim text ≠ ""

theorem ComputedField.fault?_eq_none_iff_wellFormed {f : ComputedField} :
    f.fault? = none ↔ f.WellFormed := by
  rw [fault?_eq_none_iff]
  simp only [isBlankText_eq_false_iff, ne_eq, ← trim_eq_empty_iff,
    Path.hasBlankSegment_eq_false_iff, underPrices_iff]
  constructor
  · rintro ⟨hname, hsegments, hreserved, hexpression⟩
    exact ⟨hname, hsegments, hreserved, hexpression⟩
  · intro h
    exact ⟨h.name, h.segments, h.reserved, h.expression⟩

namespace Mapping

/-- The laws for a mapping: those for each rule and each computed field, and that no two rules have
the same target. -/
structure WellFormed (m : Mapping) : Prop where
  rules : ∀ r ∈ m.rules, r.WellFormed
  targets : m.rules.Pairwise fun a b =>
    ¬(a.collection = b.collection ∧ a.path = b.path ∧ a.priceKind? = b.priceKind?)
  fields : ∀ f ∈ m.computedFields, f.WellFormed

theorem nodup_targets_iff {rules : List Rule} :
    (rules.map Rule.target).Nodup ↔ rules.Pairwise fun a b =>
      ¬(a.collection = b.collection ∧ a.path = b.path ∧ a.priceKind? = b.priceKind?) := by
  simp only [List.Nodup, List.pairwise_map, Rule.target, ne_eq, Prod.mk.injEq]

/-- A mapping passes validation exactly if it obeys all laws, wherever its rules and computed fields
stand. -/
theorem validate_eq_ok_iff_wellFormed (m : Mapping) : m.validate = .ok () ↔ m.WellFormed := by
  rw [validate_eq_ok_iff, validateRules_eq_ok_iff, validateFields_eq_ok_iff, nodup_targets_iff]
  simp only [Rule.fault?_eq_none_iff_wellFormed, ComputedField.fault?_eq_none_iff_wellFormed]
  constructor
  · rintro ⟨⟨hrules, htargets, -⟩, hfields⟩
    exact ⟨hrules, htargets, hfields⟩
  · rintro ⟨hrules, htargets, hfields⟩
    exact ⟨⟨hrules, htargets, fun r _ => List.not_mem_nil⟩, hfields⟩

end Mapping
end TableImport
