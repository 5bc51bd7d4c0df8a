import TableImport.Proofs.Document.Batches

/-! What a document that is put over another leaves of it, key by key and, in the list of prices,
entry by entry. -/
namespace TableImport.Document
open PriceRecord

variable {t : Int32 × UInt32 × String} {r : PriceRecord} {v : Json} {items items' : List Json}
  {incoming : List PriceRecord}

/-! ### Entries -/

/-- An entry with a price written over it: other fields are as they were. -/
structure Rewrites (r : PriceRecord) (entry entry' : Assoc Json) : Prop where
  year : Assoc.get? "year" entry' = some (.int r.year.toInt)
  month : Assoc.get? "month" entry' = some (.int r.month.toNat)
  kind : Assoc.get? "type" entry' = some (.string r.kind)
  price : Assoc.get? "price" entry' = some (.int r.price.toInt)
  status : Assoc.get? "status" entry' = some (.string r.status.name)
  others : ∀ key ∉ ["year", "month", "type", "price", "status"],
    Assoc.get? key entry' = Assoc.get? key entry

theorem rewrites_overwrite (r : PriceRecord) (entry : Assoc Json) :
    Rewrites r entry (overwrite entry r) where
  year := carries_overwrite entry r "year" _ rfl
  month := carries_overwrite entry r "month" _ rfl
  kind := carries_overwrite entry r "type" _ rfl
  price := carries_overwrite entry r "price" _ rfl
  status := carries_overwrite entry r "status" _ rfl
  others key hkey := by
    have hnone : Assoc.get? key r.fields = none := by
      rw [Assoc.get?_eq_none_iff]
      simp only [PriceRecord.fields, List.map_cons, List.map_nil, List.mem_cons,
        List.not_mem_nil, or_false, not_or] at hkey ⊢
      tauto
    rw [overwrite, Assoc.get?_foldl_insert (by simp [PriceRecord.fields]), hnone, Option.none_or]

theorem afterPrices_eq_self (h : ∀ r ∈ incoming, occupies r.slot v = false) :
    afterPrices incoming v = v := by
  have hnone : (incoming.findRev? fun r => occupies r.slot v) = none := by
    rw [List.findRev?_eq_find?_reverse, List.find?_eq_none]
    intro r hr
    simp [h r (List.mem_reverse.mp hr)]
  rw [afterPrices, hnone]
  rfl

theorem afterPrices_eq (h : occupies t v = true) (hlast : Keyed.last? slot t incoming = some r) :
    afterPrices incoming v = withPrice r v := by
  have hfound : (incoming.findRev? fun r => occupies r.slot v) = Keyed.last? slot t incoming := by
    unfold Keyed.last?
    congr 1
    funext s
    rw [occupies_eq h]
    exact decide_eq_decide.mpr eq_comm
  rw [afterPrices, hfound, hlast]
  rfl

/-! ### Lists of entries -/

/-- What becomes of a list of entries when prices are put into it. -/
structure Frame (incoming : List PriceRecord) (items items' : List Json) : Prop where
  /-- An entry that is not the first one for the slot of a price stays where and as it is. -/
  kept : ∀ k v, items[k]? = some v →
    (∀ t ∈ slots incoming, items.findIdx? (occupies t) ≠ some k) → items'[k]? = some v
  /-- The first entry for a slot keeps its place, and the last price for the slot is written over
  it. -/
  rewritten : ∀ t r k, Keyed.last? slot t incoming = some r →
    items.findIdx? (occupies t) = some k →
      ∃ entry entry', items[k]? = some (.object entry) ∧ items'[k]? = some (.object entry') ∧
        Rewrites r entry entry'
  /-- The last prices for the other slots come after the list, in the order in which these slots
  appear. -/
  added : ∃ prices, items'.drop items.length = prices.map PriceRecord.toJson ∧
    slots prices = ((slots incoming).filter fun t => !items.any (occupies t)).eraseDups ∧
    ∀ r ∈ prices, Keyed.last? slot r.slot incoming = some r

theorem frame_nil (incoming : List PriceRecord) :
    Frame incoming [] ((merge [] incoming).map PriceRecord.toJson) where
  kept k v hv := by simp at hv
  rewritten t r k hr hk := by simp at hk
  added := by
    refine ⟨merge [] incoming, rfl, ?_, ?_⟩
    · simp [slots_merge, List.removeAll]
    · intro r hr
      have hnil : (slots []).Nodup := List.nodup_nil
      have hfirst := Keyed.first?_of_mem (nodup_slots_merge hnil incoming) hr
      rw [merge_eq, Keyed.first?_putAll] at hfirst
      simpa [Keyed.first?] using hfirst

theorem Frame.cons (h : Frame (incoming.filter fun r => !occupies r.slot v) items items') :
    Frame incoming (v :: items) (afterPrices incoming v :: items') where
  kept k w hw hnone := by
    cases k with
    | zero =>
      have hother : ∀ r ∈ incoming, occupies r.slot v = false := by
        intro r hr
        rw [Bool.eq_false_iff]
        intro hfound
        exact hnone r.slot (List.mem_map_of_mem hr) (by simp [List.findIdx?_cons, hfound])
      rw [List.getElem?_cons_zero, afterPrices_eq_self hother]
      exact hw
    | succ k =>
      apply h.kept k w hw
      intro t ht hk
      obtain ⟨r, hr, rfl⟩ := List.mem_map.mp ht
      obtain ⟨hr, hother⟩ := List.mem_filter.mp hr
      have hfalse : occupies r.slot v = false := by simpa using hother
      exact hnone r.slot (List.mem_map_of_mem hr) (by simp [List.findIdx?_cons, hfalse, hk])
  rewritten t r k hlast hk := by
    rw [List.findIdx?_cons] at hk
    cases hfound : occupies t v with
    | true =>
      rw [hfound, if_pos rfl] at hk
      obtain rfl := Option.some.inj hk
      rw [List.getElem?_cons_zero, List.getElem?_cons_zero, afterPrices_eq hfound hlast]
      cases v with
      | object entry => exact ⟨entry, _, rfl, rfl, rewrites_overwrite r entry⟩
      | null | bool | int | float | string | array => cases hfound
    | false =>
      rw [hfound, if_neg Bool.false_ne_true] at hk
      obtain ⟨j, hj, rfl⟩ := Option.map_eq_some_iff.mp hk
      rw [List.getElem?_cons_succ, List.getElem?_cons_succ]
      refine h.rewritten t r j ?_ hj
      rw [Keyed.last?_filter, hlast]
      rintro s rfl
      simp [hfound]
  added := by
    obtain ⟨prices, hdrop, hslots, hlast⟩ := h.added
    refine ⟨prices, hdrop, ?_, ?_⟩
    · have hfilter : slots (incoming.filter fun r => !occupies r.slot v) =
          (slots incoming).filter fun t => !occupies t v := by
        rw [slots, slots, List.filter_map]
        rfl
      rw [hslots, hfilter, List.filter_filter]
      simp only [List.any_cons, Bool.not_or, Bool.and_comm]
    · intro r hr
      have hr := hlast r hr
      have hother := (List.mem_filter.mp (Keyed.mem_of_last? hr).1).2
      rwa [Keyed.last?_filter] at hr
      rintro s hs
      rwa [hs]

/-- Putting prices into a list of entries touches the first entries for their slots alone. -/
theorem frame_foldl_putPrice (incoming : List PriceRecord) (items : List Json) :
    Frame incoming items (incoming.foldl (fun items r => putPrice r items) items) := by
  induction items generalizing incoming with
  | nil =>
    have hwritten := foldl_putPrice_map_toJson [] incoming
    rw [List.map_nil] at hwritten
    rw [hwritten]
    exact frame_nil incoming
  | cons v items ih =>
    rw [foldl_putPrice_cons]
    exact (ih _).cons

/-! ### Documents -/

theorem get?_upsert_prices_of_kept {existing incoming : Document} (hordered : incoming.Ordered)
    (h : incoming.get? pricesKey = none ∨ ¬existing.TakesPrices) :
    (existing.upsert incoming).get? pricesKey = existing.get? pricesKey := by
  rw [upsert_eq, get?_foldl_putField_prices (Assoc.Ordered.nodup hordered)]
  split
  · next hkey =>
    rcases h with habsent | hother
    · exact absurd hkey (Assoc.get?_eq_none_iff.mp habsent)
    · rw [(mergePrices_of_not_takesPrices hother incoming.prices).1]
  · rfl

/-- A document that is put over another replaces what that has under the same keys, but for the
prices. Without prices of its own, or where something else is stored in place of a list, the stored
prices stay. Entries of a stored list stay where they are, and all but the first for each slot of a
new price as they are; the other new prices come last. The same document again changes nothing. -/
theorem upsert_frame (existing incoming : Document) (hordered : incoming.Ordered) :
    (∀ key, key ≠ pricesKey →
      (existing.upsert incoming).get? key = (incoming.get? key).or (existing.get? key)) ∧
    (incoming.get? pricesKey = none ∨ ¬existing.TakesPrices →
      (existing.upsert incoming).get? pricesKey = existing.get? pricesKey) ∧
    ((incoming.get? pricesKey).isSome → existing.TakesPrices → ∃ items,
      (existing.upsert incoming).get? pricesKey = some (.array items) ∧
        Frame incoming.prices existing.priceItems items) ∧
    (existing.upsert incoming).upsert incoming = existing.upsert incoming := by
  refine ⟨?_, get?_upsert_prices_of_kept hordered, ?_, upsert_upsert_self existing incoming⟩
  · intro key hkey
    exact get?_upsert_of_ne hordered hkey existing
  · intro hprices htakes
    refine ⟨_, ?_, frame_foldl_putPrice incoming.prices existing.priceItems⟩
    rw [get?_upsert_prices hordered hprices, mergePrices_eq htakes, get?_insert_self]

/-- A name, and prices of which one is for the month of the repeated ones. -/
def renamed : Document :=
  ⟨[("name", .string "Alpha"), (pricesKey, .array (repriced.map PriceRecord.toJson))]⟩

theorem upsert_frame_renamed :
    renamed.Ordered ∧ repeated.TakesPrices ∧ (renamed.get? pricesKey).isSome ∧
      (repeated.upsert renamed).get? "name" = some (.string "Alpha") ∧
      ∃ items, (repeated.upsert renamed).get? pricesKey = some (.array items) ∧
        Frame renamed.prices repeated.priceItems items := by
  have hordered : renamed.Ordered := by
    have hkeys : ["name", pricesKey].Pairwise (· < ·) := by decide +kernel
    exact List.pairwise_map.mp hkeys
  have htakes : repeated.TakesPrices := .inr (.inr ⟨_, rfl⟩)
  obtain ⟨hothers, -, hprices, -⟩ := upsert_frame repeated renamed hordered
  refine ⟨hordered, htakes, rfl, ?_, hprices rfl htakes⟩
  rw [hothers "name" (by decide)]
  rfl

end TableImport.Document
