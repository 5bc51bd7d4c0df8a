import TableImport.Proofs.Row.Prices

/-! What stores the values of names: a name stands for a number on some row only if a rule or an
earlier computed field stores what it is read from. -/
namespace TableImport

theorem object?_of_jsonNumber? {x : Float} {v : Json} (h : jsonNumber? x = some v) :
    v.object? = none := by
  unfold jsonNumber? at h
  split at h
  · cases h
    rfl
  · split at h
    · cases h
      rfl
    · cases h

theorem Cell.object?_of_coerceNumber {asPercentage : Bool} {c : Cell} {v : Json}
    (h : c.coerceNumber asPercentage = .value v) : v.object? = none := by
  unfold coerceNumber at h
  split at h
  · cases h
  · split at h
    · next hnumber =>
      cases h
      exact object?_of_jsonNumber? hnumber
    · cases h

/-- Cells yield texts and numbers, and no objects. -/
theorem Cell.object?_of_coerce {c : Cell} {format : CellFormat} {v : Json}
    (h : c.coerce format = .value v) : v.object? = none := by
  unfold coerce at h
  split at h
  · cases h
  · cases format with
    | text =>
      simp only at h
      split at h <;> cases h
      rfl
    | number => exact object?_of_coerceNumber h
    | percentage => exact object?_of_coerceNumber h
    | date =>
      simp only at h
      split at h <;> cases h
      rfl

/-! ### Where the numbers of a row stand -/

/-- Numbers are only found at such paths. -/
def Documents.NumbersAt (d : Documents) (P : Collection → String → Prop) : Prop :=
  ∀ c q x, (d.ofCollection c).getNumber? q = some x → P c q

namespace Documents.NumbersAt
variable {d : Documents} {P Q : Collection → String → Prop} {c : Collection} {path : String}
  {v : Json}

theorem mono (h : d.NumbersAt P) (hPQ : ∀ c q, P c q → Q c q) : d.NumbersAt Q := by
  intro c q x hx
  exact hPQ c q (h c q x hx)

theorem store (h : d.NumbersAt P) (hpath : P c path) (hv : v.object? = none) :
    (d.store c path v).NumbersAt P := by
  intro c' q x hx
  by_cases hc : c' = c
  · subst hc
    rw [ofCollection_store_self] at hx
    rcases Document.getNumber?_setPath hv hx with rfl | hold
    · exact hpath
    · exact h _ q x hold
  · rw [ofCollection_store_of_ne hc] at hx
    exact h c' q x hx

theorem booked {o : Obtained} (h : o.documents.NumbersAt P) : o.booked.NumbersAt P := by
  intro c q x hx
  unfold Obtained.booked at hx
  split at hx
  · exact h c q x hx
  · cases c with
    | primary => exact h .primary q x (Document.getNumber?_mergePrices hx)
    | secondary => exact h .secondary q x hx

theorem addComputed {f : CompiledField} (h : d.NumbersAt P)
    (hpath : P f.field.collection f.field.path) : (d.addComputed f).NumbersAt P := by
  rcases d.addComputed_cases f with hsame | ⟨x, v, hv, hstore⟩
  · rw [hsame]
    exact h
  · rw [hstore]
    exact h.store hpath (object?_of_jsonNumber? hv)

end Documents.NumbersAt

namespace Obtained
variable {period : PricePeriod} {header row : Row} {rules : List Rule} {o o' : Obtained}
  {P : Collection → String → Prop}

theorem numbersAt_of_runs (h : Runs period header row o rules o')
    (hrules : ∀ r ∈ rules, ¬r.IsPrice → P r.collection r.path) (ho : o.documents.NumbersAt P) :
    o'.documents.NumbersAt P := by
  induction h with
  | nil => exact ho
  | cons hadds _ ih =>
    rw [List.forall_mem_cons] at hrules
    apply ih hrules.2
    cases hadds with
    | books => exact ho
    | nothing => exact ho
    | stores _ hstores =>
      obtain ⟨hother, c, -, hvalue⟩ := hstores
      exact ho.store (hrules.1 hother) (Cell.object?_of_coerce hvalue)

end Obtained

namespace Mapping
variable {m : Mapping} {context : Context} {period : PricePeriod} {header row : Row}
  {d : Documents} {k : Nat}

/-- A rule other than for prices, or one of the first computed fields, stores at the path. -/
def StoresAt (m : Mapping) (k : Nat) (c : Collection) (path : String) : Prop :=
  (∃ r ∈ m.rules, ¬r.IsPrice ∧ r.collection = c ∧ r.path = path) ∨
    ∃ f ∈ m.computedFields.take k, f.collection = c ∧ f.path = path

theorem StoresAt.succ {c : Collection} {path : String} (h : m.StoresAt k c path) :
    m.StoresAt (k + 1) c path := by
  refine h.imp_right ?_
  rintro ⟨f, hf, hfc⟩
  refine ⟨f, ?_, hfc⟩
  rw [List.take_add_one]
  exact List.mem_append_left _ hf

theorem storesAt_field {f : ComputedField} (hf : m.computedFields[k]? = some f) :
    m.StoresAt (k + 1) f.collection f.path := by
  refine .inr ⟨f, ?_, rfl, rfl⟩
  rw [List.take_add_one, hf]
  exact List.mem_append_right _ (List.mem_singleton_self f)

theorem numbersAt_of_stage
    (h : (Engine.ofMapping m context period).Stage (Header.ofRow header) row k d) :
    d.NumbersAt (m.StoresAt k) := by
  induction h with
  | @start o _ hrules _ =>
    have hstart : Obtained.none.documents.NumbersAt (m.StoresAt 0) := by
      intro c q x hx
      cases c <;> cases hx
    have hruns := Obtained.runs_of_addAll hrules
    exact (Obtained.numbersAt_of_runs hruns
      (fun r hr hother => .inl ⟨r, hr, hother, rfl, rfl⟩) hstart).booked
  | @step k d c _ hc ih =>
    obtain ⟨f, hf, rfl⟩ := mem_of_computed hc
    have hold : d.NumbersAt (m.StoresAt (k + 1)) := ih.mono fun _ _ => StoresAt.succ
    exact hold.addComputed (storesAt_field hf)

/-- Whatever price is found is of a kind for which there is a rule. -/
theorem exists_rule_of_findPrice? (hvalid : m.validate = .ok ())
    (h : (Engine.ofMapping m context period).Stage (Header.ofRow header) row k d) {kind : String}
    {p : PriceRecord} (hp : d.primary.findPrice? kind = some p) :
    ∃ r ∈ m.rules, r.price? = some kind := by
  obtain ⟨prices, hbooked, -, hkey⟩ := booked_of_stage hvalid h
  have hkind : p.kind = kind := by simpa using List.find?_some hp
  have hmem : p ∈ d.primary.prices := List.mem_of_find?_eq_some hp
  rw [prices_of_booked hkey] at hmem
  obtain ⟨-, -, -, r, hr, hprice, hrkind⟩ := hbooked.exists_rule (List.mem_of_mem_filter hmem)
  exact ⟨r, hr, Rule.price?_eq_some_iff.mpr ⟨hprice, hkind ▸ hrkind⟩⟩

end Mapping

/-! ### Names -/

theorem afterStart?_eq_some_iff {start text rest : String} :
    afterStart? start text = some rest ↔ start ++ rest = text := by
  unfold afterStart?
  rw [Option.map_eq_some_iff, ← String.toList_inj, String.toList_append]
  constructor
  · rintro ⟨cs, hcs, rfl⟩
    rw [String.toList_ofList]
    exact List.isPrefixOf?_eq_some_iff_append_eq.mp hcs
  · intro h
    exact ⟨rest.toList, List.isPrefixOf?_eq_some_iff_append_eq.mpr h, String.ofList_toList⟩

/-- The document that a name is read from, unless it is that of a price. -/
def collectionRead (name : String) : Collection :=
  if (afterStart? metricsStart name).isSome then .secondary else .primary

theorem Documents.resolve_of_not_price {d : Documents} {name : String}
    (h : afterStart? priceStart name = none) :
    d.resolve name = ((d.ofCollection (collectionRead name)).getNumber? name).filter
      Float.isFinite := by
  unfold resolve collectionRead
  simp only [h]
  split <;> rfl

/-- The names of prices are paths below the stored list of prices, and none of the metrics. -/
theorem first_of_afterStart? {name kind : String} (h : afterStart? priceStart name = some kind) :
    Path.first name = pricesKey ∧ collectionRead name = .primary := by
  obtain rfl := afterStart?_eq_some_iff.mp h
  have hmetrics : (afterStart? metricsStart (priceStart ++ kind)).isSome = false := by
    simp [afterStart?, String.toList_append, metricsStart, priceStart, List.isPrefixOf]
  constructor
  · simp [Path.first, Path.cut, String.toList_append, priceStart, pricesKey]
  · simp [collectionRead, hmetrics]

namespace Mapping
variable {m : Mapping} {k : Nat} {name : String}

/-- A rule or one of the first computed fields stores what a name is read from: prices of the kind
that it names, or a value at its path in the document that it is read from. -/
def Supplies (m : Mapping) (k : Nat) (name : String) : Prop :=
  match afterStart? priceStart name with
  | some kind => ∃ r ∈ m.rules, r.price? = some kind
  | none => m.StoresAt k (collectionRead name) name

theorem supplies_price {kind : String} (h : afterStart? priceStart name = some kind) :
    m.Supplies k name ↔ ∃ r ∈ m.rules, r.price? = some kind := by
  unfold Supplies
  rw [h]

theorem supplies_value (h : afterStart? priceStart name = none) :
    m.Supplies k name ↔ m.StoresAt k (collectionRead name) name := by
  unfold Supplies
  rw [h]

/-- The value that a name of no price is read from is never kept below the list of prices. -/
theorem supplies_of_storesAt (hvalid : m.validate = .ok ())
    (h : m.StoresAt k (collectionRead name) name) : m.Supplies k name := by
  cases hprice : afterStart? priceStart name with
  | none => exact (supplies_value hprice).mpr h
  | some kind =>
    obtain ⟨hfirst, hprimary⟩ := first_of_afterStart? hprice
    rw [hprimary] at h
    rcases h with ⟨r, hr, hother, hc, rfl⟩ | ⟨f, hf, hc, rfl⟩
    · have hfault := (rules_of_validate hvalid).1 r hr
      exact absurd hfirst (Rule.first_ne_pricesKey hfault hother hc)
    · have hfault := fields_of_validate hvalid f (List.mem_of_mem_take hf)
      exact absurd hfirst (ComputedField.first_ne_pricesKey hfault hc)

/-- A name that nothing supplies stands for no number, on any row. -/
theorem resolve_of_not_supplies (hvalid : m.validate = .ok ()) (hname : ¬m.Supplies k name)
    {context : Context} {period : PricePeriod} {header row : Row} {d : Documents}
    (h : (Engine.ofMapping m context period).Stage (Header.ofRow header) row k d) :
    d.resolve name = none := by
  rw [Option.eq_none_iff_forall_ne_some]
  intro x hx
  apply hname
  cases hprice : afterStart? priceStart name with
  | some kind =>
    unfold Documents.resolve at hx
    obtain ⟨hfound, -⟩ := Option.filter_eq_some_iff.mp hx
    simp only [hprice] at hfound
    obtain ⟨p, hp, -⟩ := Option.map_eq_some_iff.mp hfound
    exact (supplies_price hprice).mpr (exists_rule_of_findPrice? hvalid h hp)
  | none =>
    rw [Documents.resolve_of_not_price hprice] at hx
    obtain ⟨hnumber, -⟩ := Option.filter_eq_some_iff.mp hx
    exact (supplies_value hprice).mpr (numbersAt_of_stage h _ name x hnumber)

end Mapping
end TableImport
