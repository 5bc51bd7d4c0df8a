import TableImport.Proofs.Document.Distinct
import TableImport.Proofs.Number.Arithmetic
import TableImport.Proofs.Row.History
import TableImport.Proofs.Row.Supply

/-! Booked prices read back: by their kinds, by formulas, and from the documents that they are put
over. Amounts from 9·10¹⁵ minor units on are stored and not found again. -/
namespace TableImport
open PriceRecord (sizeLimit slot slots)

/-- In major units a price that can be read is a finite number. -/
theorem PriceRecord.isFinite_majorUnits {r : PriceRecord} (h : r.price.toInt.natAbs < sizeLimit) :
    r.majorUnits.isFinite = true :=
  Binary64.isFinite_ofInt_div (h.trans (by decide))

theorem Rule.books_unique {r : Rule} {header row : Row} {x y : Float} (hx : r.Books header row x)
    (hy : r.Books header row y) : x = y := by
  obtain ⟨-, c, hc, hxc⟩ := hx
  obtain ⟨-, c', hc', hyc⟩ := hy
  obtain rfl := hc.unique hc'
  exact Option.some.inj (hxc.symm.trans hyc)

namespace Booked
variable {period : PricePeriod} {header row : Row} {rules : List Rule}
  {prices : List PriceRecord} {r : Rule} {kind : String} {x : Float} {p q : PriceRecord}

theorem mem (h : Booked period header row rules prices) (hr : r ∈ rules)
    (hkind : r.priceKind? = some kind) (hbooks : r.Books header row x) :
    .ofMajor period kind x ∈ prices := by
  induction h with
  | nil => cases hr
  | price hkind' hbooks' _ ih =>
    rcases List.mem_cons.mp hr with rfl | hr
    · obtain rfl := Rule.books_unique hbooks hbooks'
      obtain rfl := Option.some.inj (hkind.symm.trans hkind')
      exact List.mem_cons_self ..
    · exact List.mem_cons_of_mem _ (ih hr)
  | other hnone _ ih =>
    rcases List.mem_cons.mp hr with rfl | hr
    · exact absurd hbooks (hnone x)
    · exact ih hr

/-- In a document that holds the row's prices each is found under its kind, if it can be read. -/
theorem findPrice?_eq (h : Booked period header row rules prices) (hslots : (slots prices).Nodup)
    (hp : p ∈ prices) {d : Document}
    (hread : d.prices = prices.filter fun r => decide (r.price.toInt.natAbs < sizeLimit)) :
    d.findPrice? p.kind = if p.price.toInt.natAbs < sizeLimit then some p else none := by
  have hmem : ∀ q, q ∈ d.prices ↔ q ∈ prices ∧ q.price.toInt.natAbs < sizeLimit := by
    intro q
    rw [hread, List.mem_filter, decide_eq_true_iff]
  cases hfound : d.findPrice? p.kind with
  | none =>
    have hlarge : ¬p.price.toInt.natAbs < sizeLimit := by
      intro hsmall
      simpa using List.find?_eq_none.mp hfound p ((hmem p).mpr ⟨hp, hsmall⟩)
    rw [if_neg hlarge]
  | some q =>
    obtain ⟨hq, hsmall⟩ := (hmem q).mp (List.mem_of_find?_eq_some hfound)
    have hkind : q.kind = p.kind := by simpa using List.find?_some hfound
    obtain rfl := h.eq_of_kind_eq hslots hp hq hkind
    rw [if_pos hsmall]

end Booked

theorem Documents.resolve_price {d : Documents} {kind : String} {p : PriceRecord}
    (h : d.primary.findPrice? kind = if p.price.toInt.natAbs < sizeLimit then some p else none) :
    d.resolve (priceStart ++ kind) =
      if p.price.toInt.natAbs < sizeLimit then some p.majorUnits else none := by
  have hname : afterStart? priceStart (priceStart ++ kind) = some kind :=
    afterStart?_eq_some_iff.mpr rfl
  simp only [resolve, hname, h]
  by_cases hsmall : p.price.toInt.natAbs < sizeLimit
  · rw [if_pos hsmall, if_pos hsmall, Option.map_some,
      Option.filter_some_pos (PriceRecord.isFinite_majorUnits hsmall)]
  · rw [if_neg hsmall, if_neg hsmall]
    rfl

/-- What is read from a document is read again where it is put over another. -/
theorem Document.mem_prices_upsert {stored incoming : Document} {p : PriceRecord}
    (hordered : incoming.Ordered) (hsmall : ∀ r ∈ incoming.prices, r.price.toInt.natAbs < sizeLimit)
    (hslots : (slots incoming.prices).Nodup) (hp : p ∈ incoming.prices) (hlist : stored.TakesPrices)
    (hkeys : ∀ v ∈ stored.priceItems, v.HasOrderedKeys) :
    p ∈ (stored.upsert incoming).prices := by
  have hsome : (incoming.get? pricesKey).isSome := by
    cases hkey : incoming.get? pricesKey with
    | none =>
      rw [prices, hkey] at hp
      cases hp
    | some v => rfl
  have hprices : (stored.upsert incoming).prices = (stored.mergePrices incoming.prices).prices := by
    rw [prices, prices, get?_upsert_prices hordered hsome]
  rw [hprices]
  exact mem_prices_mergePrices hlist hkeys hsmall hslots hp

namespace Mapping

/-- A price that a rule of a valid mapping books from an accepted row is found under its kind, and
is the value of its name in formulas, if and only if its amount is below 9·10¹⁵ minor units. It is
then among the prices of any stored document that the row's is put over. Larger amounts are stored,
but not found again. -/
theorem mapRow_readback (m : Mapping) (context : Context) (period : PricePeriod)
    (hvalid : m.validate = .ok ()) (header row : Row) (d : Documents)
    (haccepted : (Engine.ofMapping m context period).mapRow (Header.ofRow header) row =
      .accepted d) {r : Rule} (hr : r ∈ m.rules) {kind : String}
    (hkind : r.priceKind? = some kind) {x : Float} (hbooks : r.Books header row x) :
    let p := PriceRecord.ofMajor period kind x
    d.primary.findPrice? kind =
        (if p.price.toInt.natAbs < 9 * 10 ^ 15 then some p else none) ∧
      d.resolve (priceStart ++ kind) =
        (if p.price.toInt.natAbs < 9 * 10 ^ 15 then some p.majorUnits else none) ∧
      (p.price.toInt.natAbs < 9 * 10 ^ 15 → ∀ stored : Document, stored.TakesPrices →
        (∀ v ∈ stored.priceItems, v.HasOrderedKeys) →
          p ∈ (stored.upsert d.primary).prices) := by
  intro p
  obtain ⟨prices, hbooked, hslots, hstored⟩ := booked_of_accepted hvalid haccepted
  have hp : p ∈ prices := hbooked.mem hr hkind hbooks
  have hread := prices_of_booked hstored
  have hfound := hbooked.findPrice?_eq hslots hp hread
  refine ⟨hfound, Documents.resolve_price hfound, ?_⟩
  intro hsmall stored hlist hkeys
  have hsublist : (slots d.primary.prices).Sublist (slots prices) := by
    rw [hread]
    exact (List.filter_sublist).map slot
  have hordered := Engine.ordered_of_accepted haccepted
  apply Document.mem_prices_upsert hordered ?_ (hslots.sublist hsublist) ?_ hlist hkeys
  · intro q hq
    rw [hread] at hq
    exact of_decide_eq_true (List.mem_filter.mp hq).2
  · rw [hread]
    exact List.mem_filter.mpr ⟨hp, decide_eq_true hsmall⟩

/-- Alpha's price in a row of its own. -/
def alphaRow (amount : Float) : Row := [.text "Alpha", .number amount]

theorem books_alphaRow {amount : Float} (h : (Cell.number amount).number? = some amount) :
    (Rule.ofPrice "Video" "video").Books [.text "Name", .text "Video"] (alphaRow amount)
      amount := by
  refine ⟨⟨rfl, rfl⟩, .number amount, ⟨1, ⟨_, rfl, rfl⟩, ?_, rfl⟩, h⟩
  intro j hj c hc
  obtain rfl : j = 0 := by omega
  cases hc
  decide

theorem mapRow_readback_alpha : priced.validate = .ok () ∧
    ∃ d, (Engine.ofMapping priced { snapshotDate := ⟨2024, 1, 31, by decide⟩ }
        ⟨2024, 1⟩).mapRow (Header.ofRow [.text "Name", .text "Video"]) (alphaRow 10) = .accepted d ∧
      Rule.ofPrice "Video" "video" ∈ priced.rules ∧
      (Rule.ofPrice "Video" "video").Books [.text "Name", .text "Video"] (alphaRow 10) 10 ∧
      d.primary.findPrice? "video" = some (.ofMajor ⟨2024, 1⟩ "video" 10) := by
  have hbooks : (Rule.ofPrice "Video" "video").Books [.text "Name", .text "Video"]
      (alphaRow 10) 10 := books_alphaRow (by decide +kernel)
  have hrule : Rule.ofPrice "Video" "video" ∈ priced.rules := List.mem_cons_self ..
  refine ⟨rfl, _, rfl, hrule, hbooks, ?_⟩
  have hread := (mapRow_readback priced { snapshotDate := ⟨2024, 1, 31, by decide⟩ } ⟨2024, 1⟩ rfl
    [.text "Name", .text "Video"] (alphaRow 10) _ rfl hrule rfl hbooks).1
  exact hread.trans (if_pos (by decide +kernel))

/-- An amount of 10¹⁴ in major units is booked, and then neither found nor the value of its name. -/
theorem lost_price_alpha : priced.validate = .ok () ∧
    (Rule.ofPrice "Video" "video").Books [.text "Name", .text "Video"] (alphaRow 1e14) 1e14 ∧
    ∃ d, (Engine.ofMapping priced { snapshotDate := ⟨2024, 1, 31, by decide⟩ }
        ⟨2024, 1⟩).mapRow (Header.ofRow [.text "Name", .text "Video"]) (alphaRow 1e14) =
          .accepted d ∧
      d.primary.findPrice? "video" ≠ some (.ofMajor ⟨2024, 1⟩ "video" 1e14) ∧
      d.resolve "prices.video" = none := by
  refine ⟨rfl, books_alphaRow (by decide +kernel), _, rfl, by decide +kernel, ?_⟩
  exact Option.isNone_iff_eq_none.mp (by decide +kernel)

end Mapping
end TableImport
