import TableImport.Proofs.Document.Prices

/-! When merging keeps one price for each slot, whatever the stored list holds: entries that are
read for a slot, and those that are found for it when a price is written. -/
namespace TableImport

/-- The keys of an object are in order; other values have none. -/
def Json.HasOrderedKeys (v : Json) : Prop := ∀ entry, v = .object entry → Assoc.Ordered entry

namespace Document
open PriceRecord

variable {t u : Int32 × UInt32 × String} {r s : PriceRecord} {v w : Json} {entry : Assoc Json}
  {items items' : List Json} {incoming : List PriceRecord} {d : Document}

/-! ### Entries -/

/-- Whether a stored value is an entry for a slot, by the test of merging. -/
def occupies (t : Int32 × UInt32 × String) (v : Json) : Bool :=
  v.object?.any fun entry => occupiesSlot entry ⟨t.1, t.2.1, t.2.2, 0, .confirmed⟩

/-- The slot that an entry is read for, if a price is read from it. -/
def slotOf? (v : Json) : Option (Int32 × UInt32 × String) :=
  (PriceRecord.decode v).toOption.map slot

theorem slotOf?_eq_some_iff :
    slotOf? v = some t ↔ ∃ r, PriceRecord.decode v = .ok r ∧ r.slot = t := by
  unfold slotOf?
  rw [Option.map_eq_some_iff]
  constructor
  · rintro ⟨r, hr, ht⟩
    exact ⟨r, Decoder.eq_ok_of_toOption hr, ht⟩
  · rintro ⟨r, hr, ht⟩
    exact ⟨r, by rw [hr]; rfl, ht⟩

/-- Where the stricter reading finds a whole number, the rounded one finds the same. -/
theorem eq_of_wholeNumber? {lo hi i j : Int} (hwhole : v.wholeNumber? = some i)
    (hread : roundedWithin lo hi v = .ok j) : i = j := by
  cases v with
  | int k =>
    obtain ⟨hsmall, rfl, -⟩ := roundedWithin_int.mp hread
    have hfits : Json.fitsInt64 k = true := by
      unfold sizeLimit at hsmall
      rw [Json.fitsInt64, decide_eq_true_eq]
      omega
    have hint : (Json.int k).wholeNumber? = some k := by
      simp [Json.wholeNumber?, Json.int64?, hfits]
    exact Option.some.inj (hwhole.symm.trans hint)
  | float x =>
    unfold Json.wholeNumber? at hwhole
    simp only [Json.int64?, Json.float?, Option.bind_some, Bool.and_eq_true] at hwhole
    split at hwhole
    · next h =>
      obtain ⟨-, hvalue, -⟩ := (roundedWithin_of_isWhole rfl h.1).mp hread
      exact (Option.some.inj hwhole).symm.trans hvalue
    · cases hwhole
  | null | bool | string | array | object => cases hwhole

/-- An entry that is found for a slot is read for no other. -/
theorem eq_of_occupies (h : occupies t v = true) (hread : slotOf? v = some u) : u = t := by
  obtain ⟨p, hp, rfl⟩ := slotOf?_eq_some_iff.mp hread
  unfold occupies at h
  cases v with
  | object entry =>
    obtain ⟨hyear, hmonth, hkind⟩ := occupiesSlot_eq_true_iff.mp h
    obtain ⟨-, ⟨y, hy, hdecodeYear⟩, ⟨m, hm, hdecodeMonth⟩, ⟨k, hk, htext⟩, -, -⟩ :=
      decode_object_eq_ok_iff.mp hp
    rw [hy, Option.bind_some] at hyear
    rw [hm, Option.bind_some] at hmonth
    rw [hk, Option.bind_some] at hkind
    have hsameYear := eq_of_wholeNumber? hyear (decodeYear_eq_ok_iff.mp hdecodeYear)
    have hsameMonth := eq_of_wholeNumber? hmonth (decodeMonth_eq_ok_iff.mp hdecodeMonth)
    have hsameKind : t.2.2 = p.kind := by
      cases k with
      | string text =>
        cases htext
        exact (Option.some.inj hkind).symm
      | null | bool | int | float | array | object => cases hkind
    refine Prod.ext ?_ (Prod.ext ?_ hsameKind.symm)
    · exact (Int32.toInt_inj.mp hsameYear).symm
    · exact (UInt32.toNat_inj.mp (Int.ofNat.inj hsameMonth)).symm
  | null | bool | int | float | string | array => cases h

/-- An entry that is found for a slot is neither read nor found for another. -/
theorem other_of_occupies (h : occupies u v = true) (hne : u ≠ t) :
    slotOf? v ≠ some t ∧ occupies t v = false := by
  constructor
  · intro hread
    exact hne (eq_of_occupies h hread).symm
  · rw [Bool.eq_false_iff]
    intro hfound
    cases v with
    | object entry => exact hne (occupiesSlot_iff h |>.mp hfound)
    | null | bool | int | float | string | array => cases h

theorem IsEntryOf.slotOf? (h : IsEntryOf w r) : slotOf? w = some r.slot :=
  slotOf?_eq_some_iff.mpr ⟨r, h.decode, rfl⟩

theorem IsEntryOf.occupies (h : IsEntryOf w r) : occupies r.slot w = true := by
  obtain ⟨entry, rfl, -, hslot⟩ := h
  exact hslot

/-! ### One price -/

/-- All that writing a price can do: it replaces the first entry that is found for its slot, or
comes last. What is written is found and read for the slot. -/
inductive Puts (r : PriceRecord) : List Json → List Json → Prop where
  | replaces {before after : List Json} {v w : Json}
      (hbefore : ∀ u ∈ before, occupies r.slot u = false) (hv : occupies r.slot v = true)
      (hw : IsEntryOf w r) (hkeys : w.HasOrderedKeys) :
      Puts r (before ++ v :: after) (before ++ w :: after)
  | appends {items : List Json} {w : Json} (hitems : ∀ u ∈ items, occupies r.slot u = false)
      (hw : IsEntryOf w r) (hkeys : w.HasOrderedKeys) : Puts r items (items ++ [w])

theorem Puts.cons (h : Puts r items items') (hv : occupies r.slot v = false) :
    Puts r (v :: items) (v :: items') := by
  cases h with
  | replaces hbefore hfirst hw hkeys =>
    exact .replaces (List.forall_mem_cons.mpr ⟨hv, hbefore⟩) hfirst hw hkeys
  | appends hitems hw hkeys => exact .appends (List.forall_mem_cons.mpr ⟨hv, hitems⟩) hw hkeys

/-- A price that is written over an object with ordered keys is read from it. -/
theorem isEntryOf_overwrite (hkeys : Assoc.Ordered entry)
    (hprice : r.price.toInt.natAbs < sizeLimit) :
    IsEntryOf (.object (overwrite entry r)) r ∧
      (Json.object (overwrite entry r)).HasOrderedKeys := by
  have hcarries := carries_overwrite entry r
  have hordered : Assoc.Ordered (overwrite entry r) := hkeys.foldl_insert r.fields
  refine ⟨⟨_, rfl, hcarries.reads ?_ hprice, hcarries.occupiesSlot⟩, ?_⟩
  · -- Each key is there once, with the value that was written under it.
    intro f hf
    have hget := hordered.get?_of_mem hf
    have hvalue : ∀ key v, Assoc.get? key r.fields = some v → f.1 = key → f.2 = v := by
      rintro key v hfield rfl
      exact Option.some.inj (hget.symm.trans (hcarries _ v hfield))
    constructor
    · intro hkey
      exact ⟨r.year, hvalue "year" _ rfl hkey ▸ decodeYear_int r.year⟩
    · intro hkey
      exact ⟨r.month, hvalue "month" _ rfl hkey ▸ decodeMonth_int r.month⟩
    · intro hkey
      exact ⟨r.kind, by rw [hvalue "type" _ rfl hkey]; rfl⟩
    · intro hkey
      exact ⟨r.price, hvalue "price" _ rfl hkey ▸ decodePrice_int hprice⟩
    · intro hkey
      exact ⟨r.status, hvalue "status" _ rfl hkey ▸ decode_name r.status⟩
  · rintro _ ⟨⟩
    exact hordered

theorem hasOrderedKeys_toJson (r : PriceRecord) : r.toJson.HasOrderedKeys := by
  rintro _ ⟨⟩
  have hkeys : ["month", "price", "status", "type", "year"].Pairwise (· < ·) := by decide +kernel
  exact List.pairwise_map.mp hkeys

theorem puts_putPrice (hkeys : ∀ v ∈ items, v.HasOrderedKeys)
    (hprice : r.price.toInt.natAbs < sizeLimit) : Puts r items (putPrice r items) := by
  induction items with
  | nil => exact .appends (by simp) (isEntryOf_toJson hprice) (hasOrderedKeys_toJson r)
  | cons v items ih =>
    rw [List.forall_mem_cons] at hkeys
    have hrest := ih hkeys.2
    cases v with
    | object entry =>
      unfold putPrice
      by_cases hoccupied : occupiesSlot entry r = true
      · rw [if_pos hoccupied]
        obtain ⟨hentry, hordered⟩ := isEntryOf_overwrite (hkeys.1 entry rfl) hprice
        exact @Puts.replaces r [] items _ _ (by simp) hoccupied hentry hordered
      · rw [if_neg hoccupied]
        exact hrest.cons (Bool.eq_false_iff.mpr hoccupied)
    | null | bool | int | float | string | array => exact hrest.cons rfl

/-! ### Counts -/

/-- How many of the entries are read for a slot. -/
def readings (t : Int32 × UInt32 × String) (items : List Json) : Nat :=
  items.countP fun v => slotOf? v == some t

/-- How many are read for a slot beside the first entry that is found for it. -/
def spare (t : Int32 × UInt32 × String) (items : List Json) : Nat :=
  readings t (items.eraseP (occupies t))

theorem readings_append (items after : List Json) :
    readings t (items ++ after) = readings t items + readings t after := List.countP_append ..

theorem readings_cons (v : Json) (items : List Json) :
    readings t (v :: items) = readings t items + if slotOf? v = some t then 1 else 0 := by
  rw [readings, List.countP_cons]
  simp only [beq_iff_eq]
  rfl

theorem readings_eq_zero_iff : readings t items = 0 ↔ ∀ v ∈ items, slotOf? v ≠ some t := by
  simp [readings, List.countP_eq_zero]

theorem readings_cons_of_ne (h : slotOf? v ≠ some t) (items : List Json) :
    readings t (v :: items) = readings t items := by
  rw [readings_cons, if_neg h]
  omega

theorem spare_replaces {before after : List Json} (hbefore : ∀ u ∈ before, occupies t u = false)
    (hv : occupies t v = true) : spare t (before ++ v :: after) = readings t (before ++ after) := by
  have hnone : ¬before.any (occupies t) = true := by simpa using hbefore
  rw [spare, List.eraseP_append, if_neg hnone, List.eraseP_cons_of_pos hv]

theorem spare_of_none (h : ∀ v ∈ items, occupies t v = false) :
    spare t items = readings t items := by
  rw [spare, List.eraseP_of_forall_not]
  intro v hv
  simp [h v hv]

/-- Entries that are neither read nor found for a slot do not matter for it. -/
theorem spare_append_cons {before after : List Json} (hread : slotOf? v ≠ some t)
    (hfound : occupies t v = false) :
    spare t (before ++ v :: after) = spare t (before ++ after) := by
  rw [spare, spare, List.eraseP_append, List.eraseP_append,
    List.eraseP_cons_of_neg (by simp [hfound])]
  split <;> simp only [readings_append, readings_cons_of_ne hread]

theorem Puts.spare_eq (h : Puts r items items') (t : Int32 × UInt32 × String) :
    spare t items' = spare t items := by
  cases h with
  | @replaces before after v w hbefore hv hw =>
    by_cases ht : r.slot = t
    · subst ht
      rw [spare_replaces hbefore hv, spare_replaces hbefore hw.occupies]
    · obtain ⟨hvread, hvfound⟩ := other_of_occupies hv ht
      obtain ⟨hwread, hwfound⟩ := other_of_occupies hw.occupies ht
      rw [spare_append_cons hvread hvfound, spare_append_cons hwread hwfound]
  | @appends _ w hitems hw =>
    by_cases ht : r.slot = t
    · subst ht
      rw [spare_replaces hitems hw.occupies, List.append_nil, spare_of_none hitems]
    · obtain ⟨hwread, hwfound⟩ := other_of_occupies hw.occupies ht
      rw [spare_append_cons hwread hwfound, List.append_nil]

theorem Puts.readings_eq (h : Puts r items items') (t : Int32 × UInt32 × String) :
    readings t items' = if r.slot = t then spare t items + 1 else readings t items := by
  cases h with
  | @replaces before after v w hbefore hv hw =>
    simp only [readings_append, readings_cons, hw.slotOf?, Option.some.injEq]
    by_cases ht : r.slot = t
    · subst ht
      rw [if_pos rfl, if_pos rfl, spare_replaces hbefore hv, readings_append]
      omega
    · obtain ⟨hvread, -⟩ := other_of_occupies hv ht
      rw [if_neg ht, if_neg ht, if_neg hvread]
  | @appends _ w hitems hw =>
    simp only [readings_append, readings_cons, hw.slotOf?, Option.some.injEq]
    by_cases ht : r.slot = t
    · subst ht
      rw [if_pos rfl, if_pos rfl, spare_of_none hitems]
      rfl
    · rw [if_neg ht, if_neg ht]
      rfl

theorem Puts.hasOrderedKeys (h : Puts r items items') (hkeys : ∀ v ∈ items, v.HasOrderedKeys) :
    ∀ v ∈ items', v.HasOrderedKeys := by
  cases h with
  | replaces _ _ _ hw =>
    rw [List.forall_mem_append, List.forall_mem_cons] at hkeys ⊢
    exact ⟨hkeys.1, hw, hkeys.2.2⟩
  | appends _ _ hw =>
    rw [List.forall_mem_append, List.forall_mem_singleton]
    exact ⟨hkeys, hw⟩

/-- What is read from a list, beside the price that is written. -/
theorem Puts.mem_of_ne (h : Puts r items items') (hv : v ∈ items)
    (hread : PriceRecord.decode v = .ok s) (hne : s.slot ≠ r.slot) : v ∈ items' := by
  cases h with
  | @replaces before after u w hbefore hu =>
    rcases List.mem_append.mp hv with hv | hv
    · exact List.mem_append_left _ hv
    · rcases List.mem_cons.mp hv with rfl | hv
      · exact absurd (eq_of_occupies hu (slotOf?_eq_some_iff.mpr ⟨s, hread, rfl⟩)) hne
      · exact List.mem_append_right _ (List.mem_cons_of_mem _ hv)
  | appends => exact List.mem_append_left _ hv

theorem Puts.exists_mem (h : Puts r items items') : ∃ w ∈ items', PriceRecord.decode w = .ok r := by
  cases h with
  | @replaces before after u w hbefore hu hw => exact ⟨w, by simp, hw.decode⟩
  | @appends items w hitems hw => exact ⟨w, by simp, hw.decode⟩

/-! ### Many prices -/

/-- After prices are written, the entries that are read for one of their slots are those that were
spare, and one that is written; those for other slots are as many as before. -/
theorem readings_foldl_putPrice (hkeys : ∀ v ∈ items, v.HasOrderedKeys)
    (hincoming : ∀ r ∈ incoming, r.price.toInt.natAbs < sizeLimit)
    (t : Int32 × UInt32 × String) :
    readings t (incoming.foldl (fun items r => putPrice r items) items) =
      if t ∈ slots incoming then spare t items + 1 else readings t items := by
  induction incoming generalizing items with
  | nil => simp
  | cons r incoming ih =>
    rw [List.forall_mem_cons] at hincoming
    have hputs := puts_putPrice hkeys hincoming.1
    rw [List.foldl_cons, ih (hputs.hasOrderedKeys hkeys) hincoming.2, hputs.spare_eq,
      hputs.readings_eq, slots_cons]
    by_cases hlater : t ∈ slots incoming
    · simp [hlater]
    · simp [hlater, eq_comm]

theorem mem_foldl_putPrice (hkeys : ∀ v ∈ items, v.HasOrderedKeys)
    (hincoming : ∀ r ∈ incoming, r.price.toInt.natAbs < sizeLimit) (hv : v ∈ items)
    (hread : PriceRecord.decode v = .ok s) (hnew : s.slot ∉ slots incoming) :
    v ∈ incoming.foldl (fun items r => putPrice r items) items := by
  induction incoming generalizing items with
  | nil => exact hv
  | cons r incoming ih =>
    rw [List.forall_mem_cons] at hincoming
    rw [slots_cons, List.mem_cons, not_or] at hnew
    have hputs := puts_putPrice hkeys hincoming.1
    exact ih (hputs.hasOrderedKeys hkeys) hincoming.2 (hputs.mem_of_ne hv hread hnew.1) hnew.2

/-- Of prices for different slots each is read from an entry once all are written. -/
theorem written_foldl_putPrice (hkeys : ∀ v ∈ items, v.HasOrderedKeys)
    (hincoming : ∀ r ∈ incoming, r.price.toInt.natAbs < sizeLimit)
    (hdistinct : (slots incoming).Nodup) (hr : r ∈ incoming) :
    ∃ w ∈ incoming.foldl (fun items r => putPrice r items) items,
      PriceRecord.decode w = .ok r := by
  induction incoming generalizing items with
  | nil => cases hr
  | cons s incoming ih =>
    rw [List.forall_mem_cons] at hincoming
    rw [slots_cons, List.nodup_cons] at hdistinct
    have hputs := puts_putPrice hkeys hincoming.1
    have hordered := hputs.hasOrderedKeys hkeys
    rw [List.foldl_cons]
    rcases List.mem_cons.mp hr with rfl | hr
    · obtain ⟨w, hw, hread⟩ := hputs.exists_mem
      exact ⟨w, mem_foldl_putPrice hordered hincoming.2 hw hread hdistinct.1, hread⟩
    · exact ih hordered hincoming.2 hdistinct.2 hr

/-- The stored entries, if there is a list of them. -/
def priceItems (d : Document) : List Json :=
  match d.get? pricesKey with
  | some (.array items) => items
  | _ => []

theorem prices_eq (d : Document) :
    d.prices = d.priceItems.filterMap fun v => (PriceRecord.decode v).toOption := by
  unfold prices priceItems
  cases d.get? pricesKey with
  | none => rfl
  | some v => cases v <;> rfl

theorem count_slots_prices (d : Document) (t : Int32 × UInt32 × String) :
    (slots d.prices).count t = readings t d.priceItems := by
  rw [prices_eq, slots, List.map_filterMap, List.count_filterMap]
  rfl

/-- There is a list to merge prices into, or nothing in the place of one. -/
def TakesPrices (d : Document) : Prop :=
  d.get? pricesKey = none ∨ d.get? pricesKey = some .null ∨
    ∃ items, d.get? pricesKey = some (.array items)

theorem priceItems_insert_array (d : Document) (items : List Json) :
    (d.insert pricesKey (.array items)).priceItems = items := by
  unfold priceItems
  rw [get?_insert_self]

theorem mergePrices_eq (h : d.TakesPrices) (incoming : List PriceRecord) :
    d.mergePrices incoming = d.insert pricesKey
      (.array (incoming.foldl (fun items r => putPrice r items) d.priceItems)) := by
  unfold mergePrices priceItems
  rcases h with h | h | ⟨items, h⟩
  · simp [h]
  · simp [h]
  · simp [h]

theorem priceItems_mergePrices (h : d.TakesPrices) (incoming : List PriceRecord) :
    (d.mergePrices incoming).priceItems =
      incoming.foldl (fun items r => putPrice r items) d.priceItems := by
  rw [mergePrices_eq h, priceItems_insert_array]

/-- What is stored in place of a list stays. -/
theorem mergePrices_of_not_takesPrices (h : ¬d.TakesPrices) (incoming : List PriceRecord) :
    d.mergePrices incoming = d ∧ d.priceItems = [] := by
  unfold mergePrices priceItems
  unfold TakesPrices at h
  cases hstored : d.get? pricesKey with
  | none => exact (h (.inl hstored)).elim
  | some v =>
    cases v with
    | null => exact (h (.inr (.inl hstored))).elim
    | array items => exact (h (.inr (.inr ⟨items, hstored⟩))).elim
    | bool | int | float | string | object => exact ⟨rfl, rfl⟩

/-- Prices for different slots can all be read after they are merged. -/
theorem mem_prices_mergePrices (h : d.TakesPrices) (hkeys : ∀ v ∈ d.priceItems, v.HasOrderedKeys)
    (hincoming : ∀ r ∈ incoming, r.price.toInt.natAbs < sizeLimit)
    (hdistinct : (slots incoming).Nodup) (hr : r ∈ incoming) :
    r ∈ (d.mergePrices incoming).prices := by
  obtain ⟨w, hw, hread⟩ := written_foldl_putPrice hkeys hincoming hdistinct hr
  rw [prices_eq, priceItems_mergePrices h]
  exact List.mem_filterMap.mpr ⟨w, hw, by rw [hread]; rfl⟩

/-- Merging into a list with one price for each slot keeps it so, unless beside the entry that is
written over another one is read for the slot of an incoming price. Entries are found by stricter
tests than they are read by, so this can happen. -/
theorem nodup_slots_mergePrices_iff (d : Document) (incoming : List PriceRecord)
    (hdistinct : (slots d.prices).Nodup) (hkeys : ∀ v ∈ d.priceItems, v.HasOrderedKeys)
    (hincoming : ∀ r ∈ incoming, r.price.toInt.natAbs < 9 * 10 ^ 15) :
    (slots (d.mergePrices incoming).prices).Nodup ↔
      ∀ r ∈ incoming, ∀ v ∈ d.priceItems.eraseP (occupies r.slot), ∀ p,
        PriceRecord.decode v = .ok p → p.slot ≠ r.slot := by
  have hspare : ∀ t : Int32 × UInt32 × String, spare t d.priceItems = 0 ↔
      ∀ v ∈ d.priceItems.eraseP (occupies t), ∀ p, PriceRecord.decode v = .ok p → p.slot ≠ t := by
    intro t
    rw [spare, readings_eq_zero_iff]
    simp only [ne_eq, slotOf?_eq_some_iff, not_exists, not_and]
  simp only [← hspare]
  by_cases htakes : d.TakesPrices
  · rw [List.nodup_iff_count_le_one]
    simp only [count_slots_prices, priceItems_mergePrices htakes,
      readings_foldl_putPrice hkeys hincoming]
    constructor
    · intro h r hr
      have hcount := h r.slot
      have hmem : r.slot ∈ slots incoming := List.mem_map_of_mem hr
      rw [if_pos hmem] at hcount
      omega
    · intro h t
      split
      · next ht =>
        obtain ⟨r, hr, rfl⟩ := List.mem_map.mp ht
        rw [h r hr]
      · rw [← count_slots_prices]
        exact List.nodup_iff_count_le_one.mp hdistinct t
  · obtain ⟨hsame, hnone⟩ := mergePrices_of_not_takesPrices htakes incoming
    rw [hsame, hnone]
    refine iff_of_true hdistinct ?_
    intro r _
    rfl

/-- A price for January, whose month is the first only when it is rounded. -/
def roundedMonth : Document :=
  ⟨[(pricesKey, .array [.object [("month", .float 1.2), ("price", .int 1000),
    ("type", .string "video"), ("year", .int 2024)]])]⟩

theorem prices_roundedMonth : roundedMonth.prices = [⟨2024, 1, "video", 1000, .confirmed⟩] := by
  decide +kernel

theorem nodup_slots_mergePrices_iff_february :
    (slots roundedMonth.prices).Nodup ∧ (∀ v ∈ roundedMonth.priceItems, v.HasOrderedKeys) ∧
      (∀ r ∈ [(⟨2024, 2, "video", 1200, .confirmed⟩ : PriceRecord)],
        r.price.toInt.natAbs < 9 * 10 ^ 15) ∧
      (slots (roundedMonth.mergePrices [⟨2024, 2, "video", 1200, .confirmed⟩]).prices).Nodup := by
  have hdistinct : (slots roundedMonth.prices).Nodup := by
    rw [prices_roundedMonth]
    decide
  have hkeys : ∀ v ∈ roundedMonth.priceItems, v.HasOrderedKeys := by
    intro v hv
    obtain rfl := List.mem_singleton.mp hv
    rintro _ ⟨⟩
    have hpairwise : ["month", "price", "type", "year"].Pairwise (· < ·) := by decide +kernel
    exact List.pairwise_map.mp hpairwise
  have hincoming : ∀ r ∈ [(⟨2024, 2, "video", 1200, .confirmed⟩ : PriceRecord)],
      r.price.toInt.natAbs < 9 * 10 ^ 15 := by decide
  refine ⟨hdistinct, hkeys, hincoming, ?_⟩
  rw [nodup_slots_mergePrices_iff roundedMonth _ hdistinct hkeys hincoming]
  intro r hr v hv p hp
  obtain rfl := List.mem_singleton.mp hr
  have hread : p ∈ roundedMonth.prices := by
    rw [prices_eq]
    exact List.mem_filterMap.mpr ⟨v, List.mem_of_mem_eraseP hv, by rw [hp]; rfl⟩
  rw [prices_roundedMonth] at hread
  obtain rfl := List.mem_singleton.mp hread
  decide

/-- Merging a price for January into the list leads to two prices for it. -/
theorem repeated_slots_roundedMonth :
    (slots roundedMonth.prices).Nodup ∧
      (∀ r ∈ [(⟨2024, 1, "video", 1200, .confirmed⟩ : PriceRecord)],
        r.price.toInt.natAbs < 9 * 10 ^ 15) ∧
      ¬(slots (roundedMonth.mergePrices [⟨2024, 1, "video", 1200, .confirmed⟩]).prices).Nodup := by
  refine ⟨by decide +kernel, by decide, ?_⟩
  have hmerged : (roundedMonth.mergePrices [⟨2024, 1, "video", 1200, .confirmed⟩]).prices =
      [⟨2024, 1, "video", 1000, .confirmed⟩, ⟨2024, 1, "video", 1200, .confirmed⟩] := by
    decide +kernel
  rw [hmerged]
  decide

end Document
end TableImport
