import TableImport.Proofs.Row.Supply

/-! Names that are reported because nothing stores them, and those that should be and are not. -/
namespace TableImport
namespace Mapping

/-- What later formulas can read before a computed field. -/
def knownBefore (m : Mapping) (k : Nat) : List String :=
  m.rules.map Rule.produced ++
    ((m.computedFields.take k).filter ComputedField.isReadable).map ComputedField.path

/-- The names that are reported for the computed field of a position. -/
def reportsAt (m : Mapping) (k : Nat) : List Unresolved :=
  m.computedFields[k]?.toList.flatMap fun f =>
    (f.formula.mentioned.filter fun v => !(m.knownBefore k).contains v).map (⟨f.name, ·⟩)

end Mapping

theorem unresolvedFrom_eq (known : List String) (fields : List ComputedField) :
    unresolvedFrom known fields = (List.range fields.length).flatMap fun k =>
      fields[k]?.toList.flatMap fun f =>
        (f.formula.mentioned.filter fun v =>
          !(known ++ ((fields.take k).filter ComputedField.isReadable).map
            ComputedField.path).contains v).map (⟨f.name, ·⟩) := by
  induction fields generalizing known with
  | nil => rfl
  | cons f rest ih =>
    rw [unresolvedFrom, ih, List.length_cons, List.range_succ_eq_map, List.flatMap_cons,
      List.flatMap_map]
    congr 1
    · simp
    · cases hreadable : f.isReadable <;> simp [hreadable]

/-- A computed field can be read where it is stored in the document that its path is read from. -/
theorem ComputedField.isReadable_iff {f : ComputedField} :
    f.isReadable = true ↔ f.collection = collectionRead f.path := by
  unfold isReadable collectionRead
  cases f.collection <;> cases afterStart? metricsStart f.path <;> simp

namespace Mapping
variable {m : Mapping} {context : Context} {period : PricePeriod} {header row : Row}
  {d : Documents} {k : Nat} {name : String}

theorem unresolved_eq (m : Mapping) :
    m.unresolved = (List.range m.computedFields.length).flatMap m.reportsAt :=
  unresolvedFrom_eq _ _

theorem not_known_of_mem_reportsAt {u : Unresolved} (h : u ∈ m.reportsAt k) :
    u.name ∉ m.knownBefore k := by
  obtain ⟨f, -, hu⟩ := List.mem_flatMap.mp h
  obtain ⟨v, hv, rfl⟩ := List.mem_map.mp hu
  simpa using (List.mem_filter.mp hv).2

/-- A rule stores a value at the path of a name, but not in the document that it is read from. -/
def Misplaces (m : Mapping) (name : String) : Prop :=
  ∃ r ∈ m.rules, ¬r.IsPrice ∧ r.path = name ∧ r.collection ≠ collectionRead name

theorem known_of_rule {r : Rule} (hr : r ∈ m.rules) (hname : r.produced = name) :
    name ∈ m.knownBefore k :=
  List.mem_append_left _ (List.mem_map.mpr ⟨r, hr, hname⟩)

theorem known_of_supplies (h : m.Supplies k name) : name ∈ m.knownBefore k := by
  cases hprice : afterStart? priceStart name with
  | some kind =>
    obtain ⟨r, hr, hkind⟩ := (supplies_price hprice).mp h
    apply known_of_rule hr
    rw [Rule.produced, hkind]
    exact afterStart?_eq_some_iff.mp hprice
  | none =>
    rcases (supplies_value hprice).mp h with ⟨r, hr, hother, -, rfl⟩ | ⟨f, hf, hc, rfl⟩
    · apply known_of_rule hr
      rw [Rule.produced, Rule.price?_eq_none_iff.mpr hother]
    · have hreadable := ComputedField.isReadable_iff.mpr hc
      exact List.mem_append_right _
        (List.mem_map.mpr ⟨f, List.mem_filter.mpr ⟨hf, hreadable⟩, rfl⟩)

theorem known_of_misplaces (h : m.Misplaces name) : name ∈ m.knownBefore k := by
  obtain ⟨r, hr, hother, rfl, -⟩ := h
  apply known_of_rule hr
  rw [Rule.produced, Rule.price?_eq_none_iff.mpr hother]

/-- A rule counts as known what it stores, wherever that is. -/
theorem supplies_or_misplaces (hvalid : m.validate = .ok ()) {r : Rule} (hr : r ∈ m.rules) :
    m.Supplies k r.produced ∨ m.Misplaces r.produced := by
  cases hprice : r.price? with
  | some kind =>
    have hname : r.produced = priceStart ++ kind := by rw [Rule.produced, hprice]
    have hkind := afterStart?_eq_some_iff.mpr hname.symm
    exact .inl ((supplies_price hkind).mpr ⟨r, hr, hprice⟩)
  | none =>
    have hname : r.produced = r.path := by rw [Rule.produced, hprice]
    have hother := Rule.price?_eq_none_iff.mp hprice
    rw [hname]
    by_cases hc : r.collection = collectionRead r.path
    · exact .inl (supplies_of_storesAt hvalid (.inl ⟨r, hr, hother, hc, rfl⟩))
    · exact .inr ⟨r, hr, hother, rfl, hc⟩

/-- What is known to the formulas is supplied to them, or misplaced by a rule. -/
theorem mem_knownBefore_iff (hvalid : m.validate = .ok ()) :
    name ∈ m.knownBefore k ↔ m.Supplies k name ∨ m.Misplaces name := by
  constructor
  · intro h
    rcases List.mem_append.mp h with h | h
    · obtain ⟨r, hr, rfl⟩ := List.mem_map.mp h
      exact supplies_or_misplaces hvalid hr
    · obtain ⟨f, hf, rfl⟩ := List.mem_map.mp h
      obtain ⟨hf, hreadable⟩ := List.mem_filter.mp hf
      have hc := ComputedField.isReadable_iff.mp hreadable
      exact .inl (supplies_of_storesAt hvalid (.inr ⟨f, hf, hc, rfl⟩))
  · rintro (h | h)
    · exact known_of_supplies h
    · exact known_of_misplaces h

/-- A name that stands for a number is known to the formulas. -/
theorem known_of_resolve (hvalid : m.validate = .ok ())
    (h : (Engine.ofMapping m context period).Stage (Header.ofRow header) row k d) {x : Float}
    (hx : d.resolve name = some x) : name ∈ m.knownBefore k := by
  refine (mem_knownBefore_iff hvalid).mpr (.inl ?_)
  by_contra hnot
  rw [resolve_of_not_supplies hvalid hnot h] at hx
  cases hx

/-- The reports are those for one computed field after another, and a name that is reported for a
field stands for nothing on any row when that field is computed. -/
theorem resolve_of_unresolved (hvalid : m.validate = .ok ()) :
    m.unresolved = (List.range m.computedFields.length).flatMap m.reportsAt ∧
      ∀ k, ∀ u ∈ m.reportsAt k, ∀ (context : Context) (period : PricePeriod) (header row : Row)
        (d : Documents),
        (Engine.ofMapping m context period).Stage (Header.ofRow header) row k d →
          d.resolve u.name = none := by
  refine ⟨unresolved_eq m, ?_⟩
  intro k u hu context period header row d hstage
  rw [Option.eq_none_iff_forall_ne_some]
  intro x hx
  exact not_known_of_mem_reportsAt hu (known_of_resolve hvalid hstage hx)

/-- A ratio of plays and fans, where no rule stores the fans. -/
def unfollowed : Mapping :=
  ⟨"sheet", "unfollowed", [{ header := "Plays", path := "stats.plays" }],
    [⟨"double", "stats.double", .primary, .operands .mul "stats.plays" none (some 2) none⟩,
      ⟨"ratio", "stats.ratio", .primary, .operands .div "stats.double" (some "fans") none none⟩]⟩

theorem resolve_of_unresolved_unfollowed :
    unfollowed.validate = .ok () ∧ unfollowed.unresolved = [⟨"ratio", "fans"⟩] ∧
      ∃ d, (Engine.ofMapping unfollowed { snapshotDate := ⟨2024, 1, 31, by decide⟩ }
          ⟨2024, 1⟩).Stage (Header.ofRow [.text "Plays"]) [.text "10"] 1 d ∧
        d.resolve "fans" = none := by
  have hvalid : unfollowed.validate = .ok () := by rfl
  have hreport : ⟨"ratio", "fans"⟩ ∈ unfollowed.reportsAt 1 := by decide
  refine ⟨hvalid, rfl, ?_⟩
  obtain ⟨d, hd⟩ : ∃ d, (Engine.ofMapping unfollowed { snapshotDate := ⟨2024, 1, 31, by decide⟩ }
      ⟨2024, 1⟩).Stage (Header.ofRow [.text "Plays"]) [.text "10"] 1 d :=
    ⟨_, .step (.start rfl rfl rfl) rfl⟩
  exact ⟨d, hd, (resolve_of_unresolved hvalid).2 1 _ hreport _ _ _ _ d hd⟩

theorem mem_reportsAt_iff {f : ComputedField} (hf : m.computedFields[k]? = some f)
    (hname : name ∈ f.formula.mentioned) :
    ⟨f.name, name⟩ ∈ m.reportsAt k ↔ name ∉ m.knownBefore k := by
  simp [reportsAt, hf, hname]

/-- A name of a computed field goes unreported if and only if it is supplied or a rule misplaces
it; without such a rule the reports are complete. What is misplaced only is as absent on every row
as what is reported. -/
theorem not_mem_reportsAt_iff (hvalid : m.validate = .ok ()) {f : ComputedField}
    (hf : m.computedFields[k]? = some f) (hname : name ∈ f.formula.mentioned) :
    (⟨f.name, name⟩ ∉ m.reportsAt k ↔ m.Supplies k name ∨ m.Misplaces name) ∧
      (⟨f.name, name⟩ ∉ m.unresolved → ¬m.Misplaces name → m.Supplies k name) ∧
      (¬m.Supplies k name → ∀ (context : Context) (period : PricePeriod) (header row : Row)
        (d : Documents),
        (Engine.ofMapping m context period).Stage (Header.ofRow header) row k d →
          d.resolve name = none) := by
  have hreport : ⟨f.name, name⟩ ∉ m.reportsAt k ↔ m.Supplies k name ∨ m.Misplaces name := by
    rw [mem_reportsAt_iff hf hname, not_not]
    exact mem_knownBefore_iff hvalid
  refine ⟨hreport, ?_, ?_⟩
  · intro hnone hplaced
    obtain ⟨hk, -⟩ := List.getElem?_eq_some_iff.mp hf
    have hsilent : ⟨f.name, name⟩ ∉ m.reportsAt k := by
      intro hmem
      rw [unresolved_eq] at hnone
      exact hnone (List.mem_flatMap.mpr ⟨k, List.mem_range.mpr hk, hmem⟩)
    exact (hreport.mp hsilent).resolve_right hplaced
  · intro hnot context period header row d hstage
    exact resolve_of_not_supplies hvalid hnot hstage

/-- Plays in the record of the entity, and twice their number. -/
def doubledPlays : Mapping :=
  ⟨"sheet", "doubled plays", [{ header := "Plays", path := "plays", format := .number }],
    [⟨"double", "double", .primary, .expression "plays * 2" none⟩]⟩

/-- Fans in the snapshot, and a formula that looks for them in the record of the entity. -/
def doubledFans : Mapping :=
  ⟨"sheet", "doubled fans",
    [{ header := "Fans", path := "fans", format := .number, collection? := some .secondary }],
    [⟨"double", "double", .primary, .expression "fans * 2" none⟩]⟩

theorem not_mem_reportsAt_iff_doubledPlays : doubledPlays.validate = .ok () ∧
    doubledPlays.computedFields[0]? =
      some ⟨"double", "double", .primary, .expression "plays * 2" none⟩ ∧
    "plays" ∈ (Formula.expression "plays * 2" none).mentioned ∧
    ⟨"double", "plays"⟩ ∉ doubledPlays.reportsAt 0 ∧ doubledPlays.Supplies 0 "plays" := by
  have hvalid : doubledPlays.validate = .ok () := by rfl
  have hname : "plays" ∈ (Formula.expression "plays * 2" none).mentioned := by decide +kernel
  have hstores : doubledPlays.StoresAt 0 (collectionRead "plays") "plays" :=
    .inl ⟨_, List.mem_singleton_self _, by simp [Rule.IsPrice], by decide, rfl⟩
  have hsupplies := supplies_of_storesAt hvalid hstores
  have hsilent := (not_mem_reportsAt_iff hvalid rfl hname).1.mpr (.inl hsupplies)
  exact ⟨hvalid, rfl, hname, hsilent, hsupplies⟩

/-- A checked mapping can leave a name unreported that nothing supplies. -/
theorem unreported_doubledFans : doubledFans.check = .ok () ∧
    doubledFans.computedFields[0]? =
      some ⟨"double", "double", .primary, .expression "fans * 2" none⟩ ∧
    "fans" ∈ (Formula.expression "fans * 2" none).mentioned ∧ doubledFans.unresolved = [] ∧
    ¬doubledFans.Supplies 0 "fans" := by
  have hcheck : doubledFans.check = .ok () := by rfl
  refine ⟨hcheck, rfl, by decide +kernel, by decide +kernel, ?_⟩
  have hprice : afterStart? priceStart "fans" = none := by decide
  have hread : collectionRead "fans" = .primary := by decide
  rw [supplies_value hprice, hread]
  rintro (⟨r, hr, -, hc, -⟩ | ⟨f, hf, -⟩)
  · obtain rfl := List.mem_singleton.mp hr
    cases hc
  · cases hf

end Mapping
end TableImport
