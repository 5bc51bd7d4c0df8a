import Mathlib.Data.List.Nodup
import TableImport.Config.Validate
import TableImport.Proofs.Document.Paths
import TableImport.Proofs.Fallible

/-! What the rules and computed fields of a valid mapping are like, one by one and together. -/
namespace TableImport

namespace Rule
variable {r : Rule}

/-- A rule that books prices. -/
def IsPrice (r : Rule) : Prop := r.path = pricesKey ∧ r.priceKind?.isSome

theorem price?_eq_some_iff {kind : String} :
    r.price? = some kind ↔ r.IsPrice ∧ r.priceKind? = some kind := by
  unfold price? IsPrice
  split
  · next hpath =>
    constructor
    · intro hkind
      exact ⟨⟨hpath, by simp [hkind]⟩, hkind⟩
    · exact And.right
  · next hpath => simp [hpath]

theorem price?_eq_none_iff : r.price? = none ↔ ¬r.IsPrice := by
  unfold price? IsPrice
  split
  · next hpath => simp [hpath]
  · next hpath => simp [hpath]

/-- The form of a rule without a fault: its texts are not blank, and kinds of prices go with the
list of prices of primary documents. -/
theorem fault?_eq_none_iff :
    r.fault? = none ↔ isBlankText r.header = false ∧ Path.isBlank r.path = false ∧
      Path.hasEmptySegment r.path = false ∧
      (r.collection = .primary → underPrices r.path = true → r.path = pricesKey) ∧
      (r.priceKind?.isSome → r.path = pricesKey ∧ r.collection = .primary) ∧
      (r.path = pricesKey → r.collection = .primary →
        ∃ kind, r.priceKind? = some kind ∧ isBlankText kind = false) := by
  unfold fault?
  cases hkind : r.priceKind? <;> cases hc : r.collection <;> grind

theorem primary_of_isPrice (h : r.fault? = none) (hprice : r.IsPrice) :
    r.collection = .primary := by
  obtain ⟨-, -, -, -, hkind, -⟩ := fault?_eq_none_iff.mp h
  exact (hkind hprice.2).2

/-- Rules that are not for prices keep away from the list of prices of primary documents. -/
theorem first_ne_pricesKey (h : r.fault? = none) (hother : ¬r.IsPrice)
    (hc : r.collection = .primary) : Path.first r.path ≠ pricesKey := by
  intro hfirst
  obtain ⟨-, -, -, hunder, -, hkind⟩ := fault?_eq_none_iff.mp h
  have hpath : r.path = pricesKey := hunder hc (by simp [underPrices, hfirst])
  obtain ⟨kind, hsome, -⟩ := hkind hpath hc
  exact hother ⟨hpath, by simp [hsome]⟩

/-- Without a fault only rules for prices name a kind of price. -/
theorem priceKind?_eq_none (h : r.fault? = none) (hother : ¬r.IsPrice) : r.priceKind? = none := by
  obtain ⟨-, -, -, -, hkind, -⟩ := fault?_eq_none_iff.mp h
  by_contra hne
  have hsome : r.priceKind?.isSome := Option.isSome_iff_ne_none.mpr hne
  exact hother ⟨(hkind hsome).1, hsome⟩

end Rule

/-- Rules are valid when they have no faults and no two have the same target. -/
theorem validateRules_eq_ok_iff {taken : List (Collection × String × Option String)}
    {rules : List Rule} :
    validateRules taken rules = .ok () ↔ (∀ r ∈ rules, r.fault? = none) ∧
      (rules.map Rule.target).Nodup ∧ ∀ r ∈ rules, r.target ∉ taken := by
  induction rules generalizing taken with
  | nil => simp [validateRules]
  | cons r rest ih =>
    unfold validateRules
    cases hfault : r.fault? with
    | some fault => simp [hfault]
    | none =>
      simp only
      by_cases htaken : r.target ∈ taken
      · simp [htaken]
      · simp only [List.contains_eq_mem, htaken, decide_false, Bool.false_eq_true, if_false, ih]
        rw [List.forall_mem_cons, List.forall_mem_cons, List.map_cons, List.nodup_cons]
        constructor
        · rintro ⟨hfaults, hnodup, hnew⟩
          refine ⟨⟨hfault, hfaults⟩, ⟨?_, hnodup⟩, htaken, ?_⟩
          · intro hmem
            obtain ⟨s, hs, hsame⟩ := List.mem_map.mp hmem
            exact hnew s hs (by simp [hsame])
          · intro s hs hold
            exact hnew s hs (List.mem_cons_of_mem _ hold)
        · rintro ⟨⟨-, hfaults⟩, ⟨hnew, hnodup⟩, -, hold⟩
          refine ⟨hfaults, hnodup, ?_⟩
          intro s hs hmem
          rcases List.mem_cons.mp hmem with hsame | hmem
          · exact hnew (List.mem_map.mpr ⟨s, hs, hsame⟩)
          · exact hold s hs hmem

theorem validateFields_eq_ok_iff {fault? : ComputedField → Option FieldFault}
    {fields : List ComputedField} :
    validateFields fault? fields = .ok () ↔ ∀ f ∈ fields, fault? f = none := by
  induction fields with
  | nil => simp [validateFields]
  | cons f rest ih =>
    unfold validateFields
    cases hfault : fault? f with
    | some fault => simp [hfault]
    | none => simp [hfault, ih]

namespace ComputedField
variable {f : ComputedField}

/-- The form of a computed field without a fault. -/
theorem fault?_eq_none_iff :
    f.fault? = none ↔ isBlankText f.name = false ∧ Path.hasBlankSegment f.path = false ∧
      (f.collection = .primary → ¬underPrices f.path = true) ∧
      ∀ text precision?, f.formula = .expression text precision? → isBlankText text = false := by
  unfold fault?
  cases hformula : f.formula <;> cases hc : f.collection <;> grind

/-- Computed fields keep away from the list of prices of primary documents. -/
theorem first_ne_pricesKey (h : f.fault? = none) (hc : f.collection = .primary) :
    Path.first f.path ≠ pricesKey := by
  intro hfirst
  obtain ⟨-, -, hunder, -⟩ := fault?_eq_none_iff.mp h
  exact hunder hc (by simp [underPrices, hfirst])

end ComputedField

namespace Mapping
variable {m : Mapping}

theorem validate_eq_ok_iff :
    m.validate = .ok () ↔ validateRules [] m.rules = .ok () ∧
      validateFields ComputedField.fault? m.computedFields = .ok () :=
  Fallible.andThen_eq_ok_iff

theorem rules_of_validate (h : m.validate = .ok ()) :
    (∀ r ∈ m.rules, r.fault? = none) ∧ (m.rules.map Rule.target).Nodup := by
  obtain ⟨hfaults, hnodup, -⟩ := validateRules_eq_ok_iff.mp (validate_eq_ok_iff.mp h).1
  exact ⟨hfaults, hnodup⟩

theorem fields_of_validate (h : m.validate = .ok ()) :
    ∀ f ∈ m.computedFields, f.fault? = none :=
  validateFields_eq_ok_iff.mp (validate_eq_ok_iff.mp h).2

/-- Among the rules that store values in the same collection, no path leads to another's. -/
def PrefixFree (m : Mapping) : Prop :=
  ∀ a ∈ m.rules, ∀ b ∈ m.rules, ¬a.IsPrice → ¬b.IsPrice → a.collection = b.collection → a ≠ b →
    ¬Path.segments a.path <+: Path.segments b.path

theorem PrefixFree.apart (h : m.PrefixFree) {a b : Rule} (ha : a ∈ m.rules) (hb : b ∈ m.rules)
    (haother : ¬a.IsPrice) (hbother : ¬b.IsPrice) (hc : a.collection = b.collection)
    (hne : a ≠ b) : ¬Path.Overlaps a.path b.path := by
  rintro (hab | hba)
  · exact h a ha b hb haother hbother hc hne hab
  · exact h b hb a ha hbother haother hc.symm hne.symm hba

theorem PrefixFree.pairwise_apart (h : m.PrefixFree) (hvalid : m.validate = .ok ()) :
    m.rules.Pairwise fun a b => ¬a.IsPrice → ¬b.IsPrice → a.collection = b.collection →
      ¬Path.Overlaps a.path b.path := by
  have hnodup : m.rules.Nodup := (rules_of_validate hvalid).2.of_map _
  apply hnodup.pairwise_of_forall_ne
  intro a ha b hb hne haother hbother hc
  exact h.apart ha hb haother hbother hc hne

/-! ### Two rules of one collection -/

section
variable {before between after : List Rule} {a b : Rule}

/-- Rules that store values in the same collection have different paths. -/
theorem path_ne_of_validate (hvalid : m.validate = .ok ())
    (hrules : m.rules = before ++ a :: (between ++ b :: after)) (ha : ¬a.IsPrice)
    (hb : ¬b.IsPrice) (hc : a.collection = b.collection) : a.path ≠ b.path := by
  intro hpath
  obtain ⟨hfaults, hnodup⟩ := rules_of_validate hvalid
  have hakind := Rule.priceKind?_eq_none (hfaults a (by simp [hrules])) ha
  have hbkind := Rule.priceKind?_eq_none (hfaults b (by simp [hrules])) hb
  have hsame : a.target = b.target := by
    rw [Rule.target, Rule.target, hc, hpath, hakind, hbkind]
  rw [hrules, List.map_append, List.map_cons] at hnodup
  have hnew := (List.nodup_cons.mp hnodup.of_append_right).1
  exact hnew (by simp [hsame])

/-- Of two rules of a valid mapping that store in the same collection, the later one's value is
found at its path after both have stored values that are no objects, and the earlier one's value
is found at its own path if and only if neither path leads to the other. -/
theorem getPath?_of_both_stored (hvalid : m.validate = .ok ())
    (hrules : m.rules = before ++ a :: (between ++ b :: after)) (ha : ¬a.IsPrice)
    (hb : ¬b.IsPrice) (hc : a.collection = b.collection) (d : Document) {v w : Json}
    (hv : v.object? = none) (hw : w.object? = none) :
    ((d.setPath a.path v).setPath b.path w).getPath? b.path = some w ∧
      (((d.setPath a.path v).setPath b.path w).getPath? a.path = some v ↔
        ¬Path.Overlaps a.path b.path) := by
  have hne := path_ne_of_validate hvalid hrules ha hb hc
  refine ⟨Document.getPath?_setPath_self _ _ _, ?_⟩
  exact Document.getPath?_setPath_setPath_iff hne d hv hw

end

def nameRule : Rule := { header := "Name", path := "name" }

def shortNameRule : Rule := { header := "Short name", path := "name.short" }

def townRule : Rule := { header := "Town", path := "address.town" }

/-- A name, a short name at a path below it, and a town. -/
def named : Mapping := ⟨"sheet", "named", [nameRule, shortNameRule, townRule], []⟩

theorem getPath?_of_both_stored_named : named.validate = .ok () ∧
    named.rules = [] ++ nameRule :: ([shortNameRule] ++ townRule :: []) ∧ ¬nameRule.IsPrice ∧
    ¬townRule.IsPrice ∧ nameRule.collection = townRule.collection ∧
    let d := (Document.empty.setPath "name" (.string "Alpha")).setPath "address.town" (.string "B")
    d.getPath? "address.town" = some (.string "B") ∧ d.getPath? "name" = some (.string "Alpha") := by
  have hvalid : named.validate = .ok () := by rfl
  have hname : ¬nameRule.IsPrice := by simp [Rule.IsPrice, nameRule]
  have htown : ¬townRule.IsPrice := by simp [Rule.IsPrice, townRule]
  have hapart : ¬Path.Overlaps "name" "address.town" := fun h => absurd h.first_eq (by decide)
  have hrules : named.rules = [] ++ nameRule :: ([shortNameRule] ++ townRule :: []) := rfl
  have halpha : (Json.string "Alpha").object? = none := rfl
  have htownName : (Json.string "B").object? = none := rfl
  obtain ⟨hlater, hearlier⟩ := getPath?_of_both_stored hvalid hrules hname htown rfl
    Document.empty halpha htownName
  exact ⟨hvalid, hrules, hname, htown, rfl, hlater, hearlier.mpr hapart⟩

/-- A valid mapping can have rules one of which erases what the other has stored. -/
theorem erased_by_valid_rule : named.validate = .ok () ∧
    named.rules = nameRule :: shortNameRule :: [townRule] ∧ ¬nameRule.IsPrice ∧
    ¬shortNameRule.IsPrice ∧ nameRule.collection = shortNameRule.collection ∧
    ((Document.empty.setPath nameRule.path (.string "Alpha")).setPath shortNameRule.path
      (.string "A")).getPath? nameRule.path ≠ some (.string "Alpha") := by
  refine ⟨rfl, rfl, by simp [Rule.IsPrice, nameRule], by simp [Rule.IsPrice, shortNameRule], rfl, ?_⟩
  intro hkept
  have hobject : some (Json.object [("short", .string "A")]) = some (.string "Alpha") := hkept
  cases hobject

end Mapping
end TableImport
