import TableImport.Proofs.Document.Batches
import TableImport.Proofs.Row.Prices

/-! Price histories: stores into which the documents of any number of imports are put. -/
namespace TableImport
open PriceRecord (slot slots)

/-! ### Documents of accepted rows -/

theorem Obtained.ordered_of_runs {period : PricePeriod} {header row : Row} {rules : List Rule}
    {o o' : Obtained} (h : Runs period header row o rules o')
    (ho : o.documents.primary.Ordered) : o'.documents.primary.Ordered := by
  induction h with
  | nil => exact ho
  | @cons o o₁ o₂ r rest hadds _ ih =>
    apply ih
    cases hadds with
    | books => exact ho
    | nothing => exact ho
    | stores =>
      cases r.collection with
      | primary => exact ho.setPath ..
      | secondary => exact ho

theorem Documents.ordered_foldl_addComputed (fields : List CompiledField) {d : Documents}
    (hd : d.primary.Ordered) : (fields.foldl addComputed d).primary.Ordered := by
  induction fields generalizing d with
  | nil => exact hd
  | cons c fields ih =>
    apply ih
    rcases d.addComputed_cases c with hsame | ⟨x, v, -, hstore⟩
    · rw [hsame]
      exact hd
    · rw [hstore]
      cases c.field.collection with
      | primary => exact hd.setPath ..
      | secondary => exact hd

namespace Engine

/-- Primary documents of accepted rows have each key once. -/
theorem ordered_of_accepted {e : Engine} {header row : Row} {d : Documents}
    (h : e.mapRow (Header.ofRow header) row = .accepted d) : d.primary.Ordered := by
  obtain ⟨o, hruns, rfl⟩ := runs_of_accepted h
  apply Documents.ordered_foldl_addComputed
  have ho := Obtained.ordered_of_runs hruns Document.ordered_empty
  unfold Obtained.booked
  split
  · exact ho
  · exact ho.mergePrices ..

theorem exists_accepted_of_mem_mapRows {e : Engine} {header : Header} {index : Nat}
    {rows : List Row} {ids : IdSource} {doc : Document}
    (h : doc ∈ (e.mapRows header index rows ids).1.accepted) :
    ∃ row d, e.mapRow header row = .accepted d ∧ d.primary = doc := by
  induction rows generalizing index ids with
  | nil => cases h
  | cons row rows ih =>
    rw [mapRows] at h
    cases hrow : e.mapRow header row with
    | skipped =>
      rw [hrow] at h
      exact ih h
    | rejected why =>
      rw [hrow] at h
      exact ih h
    | accepted d =>
      rw [hrow, collect_accepted] at h
      rcases List.mem_cons.mp h with rfl | h
      · exact ⟨row, d, hrow, rfl⟩
      · exact ih h

end Engine

namespace Document

/-- A primary document that an import of a table under some valid mapping yields. -/
def Imported (doc : Document) : Prop :=
  ∃ (m : Mapping) (context : Context) (period : PricePeriod) (table : Table) (ids : IdSource),
    m.validate = .ok () ∧
      doc ∈ ((Engine.ofMapping m context period).mapTable table ids).1.accepted

/-- The amounts of the stored prices are smaller than a bound. -/
def PricesBelow (doc : Document) (bound : Nat) : Prop :=
  ∀ items entry amount, doc.get? pricesKey = some (.array items) → .object entry ∈ items →
    Assoc.get? "price" entry = some (.int amount) → amount.natAbs < bound

theorem Imported.storable {doc : Document} (h : doc.Imported)
    (hsmall : doc.PricesBelow (9 * 10 ^ 15)) : Storable doc := by
  obtain ⟨m, context, period, table, ids, hvalid, hmem⟩ := h
  cases table with
  | nil => cases hmem
  | cons header rows =>
    obtain ⟨row, d, haccepted, rfl⟩ := Engine.exists_accepted_of_mem_mapRows hmem
    obtain ⟨prices, -, hdistinct, hstored⟩ := Mapping.booked_of_accepted hvalid haccepted
    have hamounts : ∀ r ∈ prices, r.price.toInt.natAbs < PriceRecord.sizeLimit := by
      intro r hr
      have hne : ¬prices.isEmpty = true := by
        rw [List.isEmpty_iff]
        exact List.ne_nil_of_mem hr
      rw [if_neg hne] at hstored
      exact hsmall _ r.fields _ hstored (List.mem_map_of_mem hr) rfl
    have hholds : HoldsPrices (d.primary.get? pricesKey) prices := by
      rw [hstored]
      split
      · next hempty =>
        rw [List.isEmpty_iff.mp hempty]
        exact .absent
      · exact .list (forall₂_map_toJson hamounts)
    have hprices := prices_of_holdsPrices hholds
    exact ⟨Engine.ordered_of_accepted haccepted, hprices ▸ hholds, hprices ▸ hdistinct,
      hprices ▸ hamounts⟩

/-- A store of imported documents has the prices of all of them, the latest for each month and
kind, in the order in which the months and kinds appeared. -/
theorem history_of_imported (docs : List Document) (himported : ∀ d ∈ docs, d.Imported)
    (hsmall : ∀ d ∈ docs, d.PricesBelow (9 * 10 ^ 15)) :
    History docs (docs.foldl upsert empty) :=
  (history_store fun d hd => (himported d hd).storable (hsmall d hd)).2

/-- The name of a fund and its price. -/
def named : Mapping :=
  ⟨"sheet", "named", [{ header := "Name", path := "name" }, .ofPrice "Video" "video"], []⟩

/-- The record of a fund with its price for a month of 2024. -/
def monthly (month : UInt32) (amount : Float) : Document :=
  ⟨[("name", .string "Alpha"),
    (pricesKey, .array [(PriceRecord.ofMajor ⟨2024, month⟩ "video" amount).toJson])]⟩

theorem pricesBelow_monthly {month : UInt32} {amount : Float} {bound : Nat}
    (h : (PriceRecord.ofMajor ⟨2024, month⟩ "video" amount).price.toInt.natAbs < bound) :
    (monthly month amount).PricesBelow bound := by
  intro items entry p hitems hentry hp
  cases hitems
  cases List.mem_singleton.mp hentry
  cases hp
  exact h

/-- A price for January, one for February, and a new one for January. -/
theorem history_of_imported_monthly :
    (∀ d ∈ [monthly 1 10, monthly 2 12, monthly 1 11], d.Imported) ∧
      (∀ d ∈ [monthly 1 10, monthly 2 12, monthly 1 11], d.PricesBelow (9 * 10 ^ 15)) ∧
      History [monthly 1 10, monthly 2 12, monthly 1 11]
        ([monthly 1 10, monthly 2 12, monthly 1 11].foldl upsert empty) := by
  have hvalid : named.validate = .ok () := rfl
  have himported : ∀ d ∈ [monthly 1 10, monthly 2 12, monthly 1 11], d.Imported := by
    simp only [List.forall_mem_cons, List.not_mem_nil, false_implies, implies_true, and_true]
    have hdate : IsDate 2024 1 31 := by decide
    refine ⟨⟨named, { snapshotDate := ⟨2024, 1, 31, hdate⟩ }, ⟨2024, 1⟩,
        [[.text "Name", .text "Video"], [.text "Alpha", .number 10]], .sequential "s" 0, hvalid,
        List.mem_singleton.mpr rfl⟩,
      ⟨named, { snapshotDate := ⟨2024, 1, 31, hdate⟩ }, ⟨2024, 2⟩,
        [[.text "Name", .text "Video"], [.text "Alpha", .number 12]], .sequential "s" 0, hvalid,
        List.mem_singleton.mpr rfl⟩,
      ⟨named, { snapshotDate := ⟨2024, 1, 31, hdate⟩ }, ⟨2024, 1⟩,
        [[.text "Name", .text "Video"], [.text "Alpha", .number 11]], .sequential "s" 0, hvalid,
        List.mem_singleton.mpr rfl⟩⟩
  have hsmall : ∀ d ∈ [monthly 1 10, monthly 2 12, monthly 1 11],
      d.PricesBelow (9 * 10 ^ 15) := by
    simp only [List.forall_mem_cons, List.not_mem_nil, false_implies, implies_true, and_true]
    exact ⟨pricesBelow_monthly (by decide +kernel), pricesBelow_monthly (by decide +kernel),
      pricesBelow_monthly (by decide +kernel)⟩
  exact ⟨himported, hsmall, history_of_imported _ himported hsmall⟩

/-- Documents of two imports may be put over each other before they are stored, whatever is stored
already. -/
theorem upsert_upsert_of_imported (stored a b : Document) (ha : a.Imported) (hb : b.Imported)
    (hasmall : a.PricesBelow (9 * 10 ^ 15)) (hbsmall : b.PricesBelow (9 * 10 ^ 15)) :
    (stored.upsert a).upsert b = stored.upsert (a.upsert b) :=
  upsert_upsert (ha.storable hasmall) (hb.storable hbsmall) stored

theorem imported_monthly {month : UInt32} {amount : Float} {hdate : IsDate 2024 1 31}
    (h : monthly month amount ∈ ((Engine.ofMapping named
      { snapshotDate := ⟨2024, 1, 31, hdate⟩ } ⟨2024, month⟩).mapTable
        [[.text "Name", .text "Video"], [.text "Alpha", .number amount]]
        (.sequential "s" 0)).1.accepted) : (monthly month amount).Imported :=
  ⟨named, _, _, _, _, rfl, h⟩

/-- A store with two prices for January, one of them with a note, takes a new price for January and
one for February. -/
theorem upsert_upsert_of_imported_monthly :
    (monthly 1 11).Imported ∧ (monthly 2 12).Imported ∧
      (monthly 1 11).PricesBelow (9 * 10 ^ 15) ∧ (monthly 2 12).PricesBelow (9 * 10 ^ 15) ∧
      (repeated.upsert (monthly 1 11)).upsert (monthly 2 12) =
        repeated.upsert ((monthly 1 11).upsert (monthly 2 12)) := by
  have hdate : IsDate 2024 1 31 := by decide
  have hjanuary : (monthly 1 11).Imported :=
    @imported_monthly 1 11 hdate (List.mem_singleton.mpr rfl)
  have hfebruary : (monthly 2 12).Imported :=
    @imported_monthly 2 12 hdate (List.mem_singleton.mpr rfl)
  have hsmall : (monthly 1 11).PricesBelow (9 * 10 ^ 15) := pricesBelow_monthly (by decide +kernel)
  have hsmall' : (monthly 2 12).PricesBelow (9 * 10 ^ 15) := pricesBelow_monthly (by decide +kernel)
  exact ⟨hjanuary, hfebruary, hsmall, hsmall',
    upsert_upsert_of_imported repeated _ _ hjanuary hfebruary hsmall hsmall'⟩

end Document
end TableImport
