import TableImport.Proofs.Document.Prices
import TableImport.Proofs.Row.Contents

/-! The prices of an accepted row: those that its price rules find, and nothing else. -/
namespace TableImport
open PriceRecord (slot slots)

/-- The prices that rules book from a row, one for each price rule that finds a number. -/
inductive Booked (period : PricePeriod) (header row : Row) :
    List Rule → List PriceRecord → Prop where
  | nil : Booked period header row [] []
  | price {r : Rule} {rules : List Rule} {prices : List PriceRecord} {kind : String} {x : Float}
      (hkind : r.priceKind? = some kind) (h : r.Books header row x)
      (hrest : Booked period header row rules prices) :
      Booked period header row (r :: rules) (.ofMajor period kind x :: prices)
  | other {r : Rule} {rules : List Rule} {prices : List PriceRecord}
      (h : ∀ x, ¬r.Books header row x) (hrest : Booked period header row rules prices) :
      Booked period header row (r :: rules) prices

namespace Booked
variable {period : PricePeriod} {header row : Row} {rules : List Rule}
  {prices : List PriceRecord}

theorem ne_nil_iff (h : Booked period header row rules prices) :
    prices ≠ [] ↔ ∃ r ∈ rules, ∃ x, r.Books header row x := by
  induction h with
  | nil => simp
  | price hkind h _ _ => exact iff_of_true (by simp) ⟨_, List.mem_cons_self .., _, h⟩
  | other h _ ih =>
    rw [ih, List.exists_mem_cons_iff]
    exact (or_iff_right fun ⟨x, hx⟩ => h x hx).symm

/-- A booked price is a confirmed one for the period, under the kind of a price rule. -/
theorem exists_rule (h : Booked period header row rules prices) {p : PriceRecord}
    (hp : p ∈ prices) : p.year = period.year ∧ p.month = period.month ∧ p.status = .confirmed ∧
      ∃ r ∈ rules, r.IsPrice ∧ r.priceKind? = some p.kind := by
  induction h with
  | nil => cases hp
  | price hkind h _ ih =>
    rcases List.mem_cons.mp hp with rfl | hp
    · exact ⟨rfl, rfl, rfl, _, List.mem_cons_self .., h.1, hkind⟩
    · obtain ⟨hyear, hmonth, hstatus, r, hr, hprice⟩ := ih hp
      exact ⟨hyear, hmonth, hstatus, r, List.mem_cons_of_mem _ hr, hprice⟩
  | other _ _ ih =>
    obtain ⟨hyear, hmonth, hstatus, r, hr, hprice⟩ := ih hp
    exact ⟨hyear, hmonth, hstatus, r, List.mem_cons_of_mem _ hr, hprice⟩

/-- The stored form of a price that is booked for a period. -/
def entry (period : PricePeriod) (p : PriceRecord) : Json :=
  .object [("month", .int period.month.toNat), ("price", .int p.price.toInt),
    ("status", .string "confirmed"), ("type", .string p.kind), ("year", .int period.year.toInt)]

theorem map_toJson (h : Booked period header row rules prices) :
    prices.map PriceRecord.toJson = prices.map (entry period) := by
  apply List.map_congr_left
  intro p hp
  obtain ⟨hyear, hmonth, hstatus, -⟩ := h.exists_rule hp
  rw [PriceRecord.toJson, PriceRecord.fields, hyear, hmonth, hstatus]
  rfl

/-- Rules with different targets book prices for different slots. -/
theorem nodup_slots (h : Booked period header row rules prices)
    (hfaults : ∀ r ∈ rules, r.fault? = none) (hnodup : (rules.map Rule.target).Nodup) :
    (slots prices).Nodup := by
  induction h with
  | nil => exact List.nodup_nil
  | @price r rules prices kind x hkind h hrest ih =>
    rw [List.forall_mem_cons] at hfaults
    rw [List.map_cons, List.nodup_cons] at hnodup
    rw [PriceRecord.slots_cons, List.nodup_cons]
    refine ⟨?_, ih hfaults.2 hnodup.2⟩
    intro hmem
    obtain ⟨p, hp, hslot⟩ := List.mem_map.mp hmem
    obtain ⟨-, -, -, s, hs, hprice, hkind'⟩ := hrest.exists_rule hp
    have hsame : p.kind = kind := congrArg (fun t => t.2.2) hslot
    -- The rule that booked the other price has the same target.
    apply hnodup.1
    refine List.mem_map.mpr ⟨s, hs, ?_⟩
    rw [Rule.target, Rule.target, Rule.primary_of_isPrice hfaults.1 h.1,
      Rule.primary_of_isPrice (hfaults.2 s hs) hprice, h.1.1, hprice.1, hkind, hkind', hsame]
  | other _ _ ih =>
    rw [List.forall_mem_cons] at hfaults
    rw [List.map_cons, List.nodup_cons] at hnodup
    exact ih hfaults.2 hnodup.2

/-- The prices of one row are for the same month, so their kinds tell them apart. -/
theorem eq_of_kind_eq (h : Booked period header row rules prices) (hslots : (slots prices).Nodup)
    {p q : PriceRecord} (hp : p ∈ prices) (hq : q ∈ prices) (hkind : q.kind = p.kind) : q = p := by
  obtain ⟨hpyear, hpmonth, -⟩ := h.exists_rule hp
  obtain ⟨hqyear, hqmonth, -⟩ := h.exists_rule hq
  apply List.inj_on_of_nodup_map hslots hq hp
  rw [slot, slot, hpyear, hpmonth, hqyear, hqmonth, hkind]

end Booked

/-! ### Rules -/

namespace Obtained
variable {period : PricePeriod} {header row : Row} {rules : List Rule} {o o' : Obtained}
  {r : Rule}

/-- A rule that is not for prices leaves those alone, the stored and the collected ones. -/
theorem prices_of_adds (h : Adds period header row o r (.ok o')) (hfault : r.fault? = .none) :
    o'.documents.primary.get? pricesKey = o.documents.primary.get? pricesKey ∧
      (¬r.IsPrice → o'.prices = o.prices) := by
  cases h with
  | books hfails hkind hbooks => exact ⟨rfl, fun hother => absurd hbooks.1 hother⟩
  | nothing => exact ⟨rfl, fun _ => rfl⟩
  | stores hfails hstores =>
    refine ⟨?_, fun _ => rfl⟩
    cases hc : r.collection with
    | primary =>
      exact Document.get?_setPath_of_ne (Rule.first_ne_pricesKey hfault hstores.1 hc).symm ..
    | secondary => rfl

theorem prices_of_runs (h : Runs period header row o rules o')
    (hfaults : ∀ r ∈ rules, r.fault? = .none) :
    o'.documents.primary.get? pricesKey = o.documents.primary.get? pricesKey ∧
      ∃ prices, Booked period header row rules prices ∧ o'.prices = o.prices ++ prices := by
  induction h with
  | nil o => exact ⟨rfl, [], .nil, (List.append_nil _).symm⟩
  | @cons o o₁ o₂ r rest hadds _ ih =>
    rw [List.forall_mem_cons] at hfaults
    obtain ⟨hkey, prices, hbooked, hprices⟩ := ih hfaults.2
    refine ⟨hkey.trans (prices_of_adds hadds hfaults.1).1, ?_⟩
    cases hadds with
    | @books kind x hfails hkind hbooks =>
      refine ⟨.ofMajor period kind x :: prices, .price hkind hbooks hbooked, ?_⟩
      rw [hprices, List.append_assoc, List.singleton_append]
    | stores hfails hstores =>
      refine ⟨prices, .other ?_ hbooked, hprices⟩
      intro x hbooks
      exact hstores.1 hbooks.1
    | nothing hfails hobtains =>
      refine ⟨prices, .other ?_ hbooked, hprices⟩
      intro x hbooks
      exact hobtains (.inl ⟨x, hbooks⟩)

end Obtained

/-! ### Computed fields -/

theorem Documents.get?_addComputed {f : ComputedField} (h : f.fault? = none) (d : Documents) :
    (d.addComputed (.compile f)).primary.get? pricesKey = d.primary.get? pricesKey := by
  have hfield : (CompiledField.compile f).field = f := rfl
  rcases d.addComputed_cases (.compile f) with hsame | ⟨x, v, -, hstore⟩
  · rw [hsame]
  · rw [hstore, hfield]
    cases hc : f.collection with
    | primary =>
      exact Document.get?_setPath_of_ne (ComputedField.first_ne_pricesKey h hc).symm ..
    | secondary => rfl

/-! ### Rows -/

namespace Mapping
variable {m : Mapping} {context : Context} {period : PricePeriod} {header row : Row}
  {d : Documents}

theorem mem_of_computed {k : Nat} {c : CompiledField}
    (h : (Engine.ofMapping m context period).computed[k]? = some c) :
    ∃ f, m.computedFields[k]? = some f ∧ c = .compile f := by
  have hmap : (m.computedFields.map CompiledField.compile)[k]? = some c := h
  rw [List.getElem?_map] at hmap
  obtain ⟨f, hf, rfl⟩ := Option.map_eq_some_iff.mp hmap
  exact ⟨f, hf, rfl⟩

/-- At every stage of a row its stored prices are those that the rules have booked. -/
theorem booked_of_stage (hvalid : m.validate = .ok ()) {k : Nat}
    (h : (Engine.ofMapping m context period).Stage (Header.ofRow header) row k d) :
    ∃ prices, Booked period header row m.rules prices ∧ (slots prices).Nodup ∧
      d.primary.get? pricesKey =
        if prices.isEmpty then none else some (.array (prices.map PriceRecord.toJson)) := by
  induction h with
  | @start o _ hrules _ =>
    obtain ⟨hfaults, hnodup⟩ := rules_of_validate hvalid
    have hruns := Obtained.runs_of_addAll hrules
    obtain ⟨hkey, prices, hbooked, hprices⟩ := Obtained.prices_of_runs hruns hfaults
    have hslots := hbooked.nodup_slots hfaults hnodup
    have hempty : o.documents.primary.get? pricesKey = none := hkey
    obtain rfl : o.prices = prices := hprices
    refine ⟨o.prices, hbooked, hslots, ?_⟩
    unfold Obtained.booked
    split
    · exact hempty
    · rw [Document.mergePrices_of_nodup hempty hslots, Document.get?_insert_self]
  | step _ hc ih =>
    obtain ⟨prices, hbooked, hslots, hkey⟩ := ih
    obtain ⟨f, hf, rfl⟩ := mem_of_computed hc
    have hfault := fields_of_validate hvalid f (List.mem_of_getElem? hf)
    exact ⟨prices, hbooked, hslots, (Documents.get?_addComputed hfault _).trans hkey⟩

theorem booked_of_accepted (hvalid : m.validate = .ok ())
    (h : (Engine.ofMapping m context period).mapRow (Header.ofRow header) row = .accepted d) :
    ∃ prices, Booked period header row m.rules prices ∧ (slots prices).Nodup ∧
      d.primary.get? pricesKey =
        if prices.isEmpty then none else some (.array (prices.map PriceRecord.toJson)) :=
  booked_of_stage hvalid (Engine.mapRow_eq_accepted_iff_stage.mp h)

/-- Of the booked prices those with small enough amounts are read from the document. -/
theorem prices_of_booked {prices : List PriceRecord} (h : d.primary.get? pricesKey =
      if prices.isEmpty then none else some (.array (prices.map PriceRecord.toJson))) :
    d.primary.prices =
      prices.filter fun r => decide (r.price.toInt.natAbs < PriceRecord.sizeLimit) := by
  rw [← Document.filterMap_decode_toJson, Document.prices, h]
  cases prices <;> rfl

/-- The stored prices of an accepted row are those that its price rules find in it, in their order,
and neither the other rules nor the computed fields touch them. -/
theorem mapRow_prices (m : Mapping) (context : Context) (period : PricePeriod)
    (hvalid : m.validate = .ok ()) (header row : Row) (d : Documents)
    (haccepted : (Engine.ofMapping m context period).mapRow (Header.ofRow header) row =
      .accepted d) :
    ((d.primary.get? pricesKey).isSome ↔ ∃ r ∈ m.rules, ∃ x, r.Books header row x) ∧
      (∃ prices, Booked period header row m.rules prices ∧ d.primary.get? pricesKey =
        if prices.isEmpty then none else some (.array (prices.map (Booked.entry period)))) ∧
      (∀ r ∈ m.rules, ¬r.IsPrice → ∀ o o' : Obtained,
        o.add period (Header.ofRow header) row r = .ok o' →
          o'.documents.primary.get? pricesKey = o.documents.primary.get? pricesKey ∧
            o'.prices = o.prices) ∧
      ∀ f ∈ m.computedFields, ∀ docs : Documents,
        (docs.addComputed (.compile f)).primary.get? pricesKey = docs.primary.get? pricesKey := by
  obtain ⟨prices, hbooked, -, hstored⟩ := booked_of_accepted hvalid haccepted
  refine ⟨?_, ⟨prices, hbooked, ?_⟩, ?_, ?_⟩
  · rw [← hbooked.ne_nil_iff, hstored]
    cases prices <;> simp
  · rw [hstored, hbooked.map_toJson]
  · intro r hr hother o o' hadd
    have hadds : Obtained.Adds period header row o r (o.add period (Header.ofRow header) row r) :=
      Obtained.adds o r
    rw [hadd] at hadds
    obtain ⟨hkey, hprices⟩ := Obtained.prices_of_adds hadds ((rules_of_validate hvalid).1 r hr)
    exact ⟨hkey, hprices hother⟩
  · intro f hf docs
    exact Documents.get?_addComputed (fields_of_validate hvalid f hf) docs

/-- Two prices and the yearly amount of one of them. -/
def priced : Mapping :=
  ⟨"sheet", "priced", [.ofPrice "Video" "video", { header := "Name", path := "name" },
    .ofPrice "Live" "live"],
    [⟨"yearly", "fees.yearly", .primary, .operands .mul "prices.video" none (some 12) none⟩]⟩

theorem mapRow_prices_priced :
    priced.validate = .ok () ∧
      ∃ d, (Engine.ofMapping priced { snapshotDate := ⟨2024, 1, 31, by decide⟩ }
          ⟨2024, 1⟩).mapRow (Header.ofRow [.text "Name", .text "Live", .text "Video"])
          [.text "Alpha", .text "n/a", .number 10] = .accepted d ∧
        ∃ prices, Booked ⟨2024, 1⟩ [.text "Name", .text "Live", .text "Video"]
          [.text "Alpha", .text "n/a", .number 10] priced.rules prices ∧
          d.primary.get? pricesKey = if prices.isEmpty then none
            else some (.array (prices.map (Booked.entry ⟨2024, 1⟩))) := by
  refine ⟨rfl, _, rfl, ?_⟩
  exact (mapRow_prices priced { snapshotDate := ⟨2024, 1, 31, by decide⟩ } ⟨2024, 1⟩ rfl
    [.text "Name", .text "Live", .text "Video"] [.text "Alpha", .text "n/a", .number 10] _ rfl).2.1

end Mapping
end TableImport
