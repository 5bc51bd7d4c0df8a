import TableImport.Proofs.Price.Batches
import TableImport.Proofs.Price.Stored

/-! Stored lists of prices beside the prices that they stand for: merging into the one is merging
into the other. -/
namespace TableImport.Document
open PriceRecord

/-! ### Entries -/

/-- A stored entry from which a price is read, and which is found again for the price's slot. -/
def IsEntryOf (v : Json) (r : PriceRecord) : Prop :=
  ∃ entry, v = .object entry ∧ Reads entry r ∧ occupiesSlot entry r = true

variable {v : Json} {r : PriceRecord} {items : List Json} {prices incoming : List PriceRecord}

theorem IsEntryOf.decode (h : IsEntryOf v r) : PriceRecord.decode v = .ok r := by
  obtain ⟨entry, rfl, hreads, -⟩ := h
  exact decode_object_eq_ok_iff.mpr hreads

theorem isEntryOf_toJson (h : r.price.toInt.natAbs < sizeLimit) : IsEntryOf r.toJson r :=
  ⟨r.fields, rfl, reads_fields h, (carries_fields r).occupiesSlot⟩

/-- Of the prices that are written, those with small enough amounts are read back. -/
theorem filterMap_decode_toJson (prices : List PriceRecord) :
    ((prices.map PriceRecord.toJson).filterMap fun v => (PriceRecord.decode v).toOption) =
      prices.filter fun r => decide (r.price.toInt.natAbs < sizeLimit) := by
  induction prices with
  | nil => rfl
  | cons r prices ih =>
    by_cases hsmall : r.price.toInt.natAbs < sizeLimit
    · have hread : (PriceRecord.decode r.toJson).toOption = some r := by
        rw [(isEntryOf_toJson hsmall).decode]
        rfl
      rw [List.filter_cons_of_pos (by simpa using hsmall), ← ih]
      exact List.filterMap_cons_some hread
    · have hnone : (PriceRecord.decode r.toJson).toOption = none := by
        rw [Option.eq_none_iff_forall_ne_some]
        intro s hread
        exact hsmall (small_of_decode_toJson (Decoder.eq_ok_of_toOption hread))
      rw [List.filter_cons_of_neg (by simpa using hsmall), ← ih]
      exact List.filterMap_cons_none hnone

theorem forall₂_map_toJson (h : ∀ r ∈ prices, r.price.toInt.natAbs < sizeLimit) :
    List.Forall₂ IsEntryOf (prices.map PriceRecord.toJson) prices := by
  induction prices with
  | nil => exact .nil
  | cons r prices ih =>
    rw [List.forall_mem_cons] at h
    exact .cons (isEntryOf_toJson h.1) (ih h.2)

/-- Writing a price into the stored list puts it into the list of prices. -/
theorem forall₂_putPrice (h : List.Forall₂ IsEntryOf items prices)
    (hprice : r.price.toInt.natAbs < sizeLimit) :
    List.Forall₂ IsEntryOf (putPrice r items) (put r prices) := by
  induction h with
  | nil => exact .cons (isEntryOf_toJson hprice) .nil
  | @cons v s items prices hentry hrest ih =>
    have hfull := hentry
    obtain ⟨entry, rfl, hreads, hslot⟩ := hentry
    unfold putPrice
    -- The test on the stored values and that on the prices choose the same entry.
    by_cases hsame : s.slot = r.slot
    · rw [if_pos ((occupiesSlot_iff hslot).mpr hsame), put_cons_of_slot_eq hsame]
      refine .cons ⟨_, rfl, ?_, (carries_overwrite entry r).occupiesSlot⟩ hrest
      exact reads_overwrite hreads.readable hprice
    · rw [if_neg (mt (occupiesSlot_iff hslot).mp hsame), put_cons_of_slot_ne hsame]
      exact .cons hfull ih

theorem forall₂_foldl_putPrice (h : List.Forall₂ IsEntryOf items prices)
    (hincoming : ∀ r ∈ incoming, r.price.toInt.natAbs < sizeLimit) :
    List.Forall₂ IsEntryOf (incoming.foldl (fun items r => putPrice r items) items)
      (merge prices incoming) := by
  induction incoming generalizing items prices with
  | nil => exact h
  | cons r incoming ih =>
    rw [List.forall_mem_cons] at hincoming
    exact ih (forall₂_putPrice h hincoming.1) hincoming.2

/-! ### Lists -/

/-- What may be stored under the key of the prices, with the prices that it stands for. -/
inductive HoldsPrices : Option Json → List PriceRecord → Prop where
  | absent : HoldsPrices none []
  | null : HoldsPrices (some .null) []
  | list {items : List Json} {prices : List PriceRecord}
      (h : List.Forall₂ IsEntryOf items prices) :
      HoldsPrices (some (.array items)) prices

theorem filterMap_decode (h : List.Forall₂ IsEntryOf items prices) :
    (items.filterMap fun v => (PriceRecord.decode v).toOption) = prices := by
  induction h with
  | nil => rfl
  | cons hentry _ ih => rw [List.filterMap_cons, hentry.decode, ih]; rfl

theorem prices_of_holdsPrices {d : Document} (h : HoldsPrices (d.get? pricesKey) prices) :
    d.prices = prices := by
  unfold Document.prices
  generalize d.get? pricesKey = stored at h
  cases h with
  | absent => rfl
  | null => rfl
  | list h => exact filterMap_decode h

/-- Prices are merged under their own key. -/
theorem get?_mergePrices_of_ne {key : String} (h : key ≠ pricesKey) (d : Document)
    (incoming : List PriceRecord) : (d.mergePrices incoming).get? key = d.get? key := by
  unfold mergePrices
  split
  · exact get?_insert_of_ne h ..
  · exact get?_insert_of_ne h ..
  · exact get?_insert_of_ne h ..
  · rfl

theorem holdsPrices_mergePrices {d : Document} (h : HoldsPrices (d.get? pricesKey) prices)
    (hincoming : ∀ r ∈ incoming, r.price.toInt.natAbs < sizeLimit) :
    HoldsPrices ((d.mergePrices incoming).get? pricesKey) (merge prices incoming) := by
  unfold mergePrices
  generalize d.get? pricesKey = stored at h
  cases h with
  | absent =>
    rw [get?_insert_self]
    exact .list (forall₂_foldl_putPrice .nil hincoming)
  | null =>
    rw [get?_insert_self]
    exact .list (forall₂_foldl_putPrice .nil hincoming)
  | list h =>
    rw [get?_insert_self]
    exact .list (forall₂_foldl_putPrice h hincoming)

/-! ### Written prices -/

theorem occupiesSlot_fields {s : PriceRecord} :
    occupiesSlot s.fields r = true ↔ s.slot = r.slot :=
  occupiesSlot_iff (carries_fields s).occupiesSlot

theorem overwrite_fields (r s : PriceRecord) : overwrite s.fields r = r.fields := by
  have hkeys : ["month", "price", "status", "type", "year"].Pairwise fun k l => ¬l < k := by
    decide +kernel
  simp only [List.pairwise_cons, List.forall_mem_cons] at hkeys
  simp only [overwrite, PriceRecord.fields, List.foldl_cons, List.foldl_nil, Assoc.insert, hkeys,
    String.reduceEq, reduceIte]

theorem putPrice_map_toJson (r : PriceRecord) (prices : List PriceRecord) :
    putPrice r (prices.map PriceRecord.toJson) = (put r prices).map PriceRecord.toJson := by
  induction prices with
  | nil => rfl
  | cons s prices ih =>
    rw [List.map_cons, PriceRecord.toJson, putPrice]
    by_cases h : s.slot = r.slot
    · rw [if_pos (occupiesSlot_fields.mpr h), overwrite_fields, put_cons_of_slot_eq h]
      rfl
    · rw [if_neg (mt occupiesSlot_fields.mp h), ih, put_cons_of_slot_ne h]
      rfl

/-- Among written prices writing is merging. -/
theorem foldl_putPrice_map_toJson (prices incoming : List PriceRecord) :
    incoming.foldl (fun items r => putPrice r items) (prices.map PriceRecord.toJson) =
      (merge prices incoming).map PriceRecord.toJson := by
  induction incoming generalizing prices with
  | nil => rfl
  | cons r incoming ih => rw [List.foldl_cons, putPrice_map_toJson, ih, merge_cons]

/-- Prices for different slots are stored as they stand in a document without any. -/
theorem mergePrices_of_nodup {d : Document} (hnone : d.get? pricesKey = none)
    (h : (slots incoming).Nodup) :
    d.mergePrices incoming = d.insert pricesKey (.array (incoming.map PriceRecord.toJson)) := by
  have hitems := foldl_putPrice_map_toJson [] incoming
  rw [List.map_nil, merge_nil_left h] at hitems
  unfold mergePrices
  rw [hnone, ← hitems]

/-! ### Lists of prices with whole years and months -/

/-- An object from which a price is read, with whole numbers for its year and month. -/
def IsIntegralEntry (v : Json) : Prop :=
  ∃ entry r, v = .object entry ∧ PriceRecord.decode v = .ok r ∧
    (∀ year, Assoc.get? "year" entry = some year → year.IsIntegral) ∧
    ∀ month, Assoc.get? "month" entry = some month → month.IsIntegral

/-- The prices are absent, null, or a list of readable entries with whole years and months. -/
def HasIntegralPrices (d : Document) : Prop :=
  d.get? pricesKey = none ∨ d.get? pricesKey = some .null ∨
    ∃ items, d.get? pricesKey = some (.array items) ∧ ∀ v ∈ items, IsIntegralEntry v

theorem IsIntegralEntry.exists_isEntryOf (h : IsIntegralEntry v) : ∃ r, IsEntryOf v r := by
  obtain ⟨entry, r, rfl, hdecode, hyear, hmonth⟩ := h
  have hreads := decode_object_eq_ok_iff.mp hdecode
  exact ⟨r, entry, rfl, hreads, occupiesSlot_of_reads hreads hyear hmonth⟩

theorem HasIntegralPrices.exists_holdsPrices {d : Document} (h : d.HasIntegralPrices) :
    ∃ prices, HoldsPrices (d.get? pricesKey) prices := by
  rcases h with h | h | ⟨items, h, hitems⟩
  · exact ⟨[], h ▸ .absent⟩
  · exact ⟨[], h ▸ .null⟩
  · obtain ⟨prices, hprices⟩ : ∃ prices, List.Forall₂ IsEntryOf items prices := by
      clear h
      induction items with
      | nil => exact ⟨[], .nil⟩
      | cons v items ih =>
        rw [List.forall_mem_cons] at hitems
        obtain ⟨r, hr⟩ := hitems.1.exists_isEntryOf
        obtain ⟨prices, hprices⟩ := ih hitems.2
        exact ⟨r :: prices, .cons hr hprices⟩
    exact ⟨prices, h ▸ .list hprices⟩

/-- Merging prices into a document merges them into the list of its prices. -/
theorem prices_mergePrices (d : Document) (incoming : List PriceRecord)
    (h : d.HasIntegralPrices)
    (hincoming : ∀ r ∈ incoming, r.price.toInt.natAbs < 9 * 10 ^ 15) :
    (d.mergePrices incoming).prices = merge d.prices incoming := by
  obtain ⟨prices, hprices⟩ := h.exists_holdsPrices
  rw [prices_of_holdsPrices hprices]
  exact prices_of_holdsPrices (holdsPrices_mergePrices hprices hincoming)

/-- Two entries for the same month and kind, one with a note and its numbers as doubles. -/
def repeated : Document :=
  ⟨[(pricesKey, .array [
    .object [("month", .float 1), ("note", .string "net"), ("price", .float 990.5),
      ("type", .string "video"), ("year", .float 2024)],
    .object [("month", .int 1), ("price", .int 1000), ("type", .string "video"),
      ("year", .int 2024)]])]⟩

theorem hasIntegralPrices_repeated : repeated.HasIntegralPrices := by
  refine .inr (.inr ⟨_, rfl, ?_⟩)
  simp only [List.forall_mem_cons, List.not_mem_nil, false_implies, implies_true, and_true]
  refine ⟨⟨_, ⟨2024, 1, "video", 991, .confirmed⟩, rfl,
      Decoder.eq_ok_of_toOption (by decide +kernel), ?_, ?_⟩,
    ⟨_, ⟨2024, 1, "video", 1000, .confirmed⟩, rfl,
      Decoder.eq_ok_of_toOption (by decide +kernel), ?_, ?_⟩⟩
  · rintro v ⟨⟩
    exact (by decide +kernel : Binary64.isWhole 2024 = true)
  · rintro v ⟨⟩
    exact (by decide +kernel : Binary64.isWhole 1 = true)
  · rintro v ⟨⟩
    trivial
  · rintro v ⟨⟩
    trivial

/-- A new price for their month, and one for the next. -/
def repriced : List PriceRecord :=
  [⟨2024, 1, "video", 1200, .confirmed⟩, ⟨2024, 2, "live", -300, .provisional⟩]

theorem prices_mergePrices_repeated :
    repeated.HasIntegralPrices ∧ (∀ r ∈ repriced, r.price.toInt.natAbs < 9 * 10 ^ 15) ∧
      (repeated.mergePrices repriced).prices =
        [⟨2024, 1, "video", 1200, .confirmed⟩, ⟨2024, 1, "video", 1000, .confirmed⟩,
          ⟨2024, 2, "live", -300, .provisional⟩] := by
  have hincoming : ∀ r ∈ repriced, r.price.toInt.natAbs < 9 * 10 ^ 15 := by decide
  have hold : repeated.prices =
      [⟨2024, 1, "video", 991, .confirmed⟩, ⟨2024, 1, "video", 1000, .confirmed⟩] := by
    decide +kernel
  refine ⟨hasIntegralPrices_repeated, hincoming, ?_⟩
  rw [prices_mergePrices repeated repriced hasIntegralPrices_repeated hincoming, hold]
  decide

end TableImport.Document
