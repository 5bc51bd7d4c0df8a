import TableImport.Proofs.Document.Commutation
import TableImport.Proofs.Document.Prices

/-! One document put over another, key by key, and a store that documents are put into one after
another. -/
namespace TableImport.Document
open PriceRecord (slot slots merge)

variable {fields : List (String × Json)} {prices incoming : List PriceRecord} {d : Document}

/-! ### One document over another -/

/-- Puts one field over a document; the prices are merged instead. -/
def putField (incoming : List PriceRecord) (d : Document) (f : String × Json) : Document :=
  if f.1 = pricesKey then d.mergePrices incoming else d.insert f.1 f.2

theorem upsert_eq (existing incoming : Document) :
    existing.upsert incoming = incoming.fields.foldl (putField incoming.prices) existing := rfl

theorem get?_putField_of_ne {key : String} (h : key ≠ pricesKey) (d : Document)
    (f : String × Json) :
    (putField incoming d f).get? key = if f.1 = key then some f.2 else d.get? key := by
  unfold putField
  by_cases hprices : f.1 = pricesKey
  · rw [if_pos hprices, if_neg fun hkey => h (hkey.symm.trans hprices),
      get?_mergePrices_of_ne h]
  · rw [if_neg hprices]
    split
    · next hkey => rw [hkey, get?_insert_self]
    · next hkey => exact get?_insert_of_ne (Ne.symm hkey) ..

theorem get?_foldl_putField {key : String} (h : key ≠ pricesKey)
    (hnodup : (fields.map Prod.fst).Nodup) (d : Document) :
    (fields.foldl (putField incoming) d).get? key = (Assoc.get? key fields).or (d.get? key) := by
  induction fields generalizing d with
  | nil => rfl
  | cons f fields ih =>
    rw [List.map_cons, List.nodup_cons] at hnodup
    rw [List.foldl_cons, ih hnodup.2, get?_putField_of_ne h]
    by_cases hkey : f.1 = key
    · rw [← hkey, Assoc.get?_eq_none_iff.mpr hnodup.1]
      simp [Assoc.get?]
    · simp [Assoc.get?, hkey]

/-- A key other than that of the prices has the incoming value, if there is one. -/
theorem get?_upsert_of_ne {incoming : Document} (hordered : incoming.Ordered) {key : String}
    (h : key ≠ pricesKey) (existing : Document) :
    (existing.upsert incoming).get? key = (incoming.get? key).or (existing.get? key) :=
  get?_foldl_putField h (Assoc.Ordered.nodup hordered) existing

theorem mergePrices_insert (h : key ≠ pricesKey) (d : Document) (v : Json)
    (incoming : List PriceRecord) :
    (d.insert key v).mergePrices incoming = (d.mergePrices incoming).insert key v := by
  have hget : (d.insert key v).get? pricesKey = d.get? pricesKey :=
    get?_insert_of_ne (Ne.symm h) d v
  unfold mergePrices
  rw [hget]
  split
  · exact insert_comm (Ne.symm h) ..
  · exact insert_comm (Ne.symm h) ..
  · exact insert_comm (Ne.symm h) ..
  · rfl

/-- Puts a field over a document, if it is another one than the prices. -/
def putOther (f : String × Json) (d : Document) : Document :=
  if f.1 = pricesKey then d else d.insert f.1 f.2

def putOthers (fields : List (String × Json)) (d : Document) : Document :=
  fields.foldl (fun d f => putOther f d) d

@[simp] theorem putOthers_nil (d : Document) : putOthers [] d = d := rfl

@[simp] theorem putOthers_cons (f : String × Json) (fields : List (String × Json))
    (d : Document) : putOthers (f :: fields) d = putOthers fields (putOther f d) := rfl

theorem get?_putOthers_prices (fields : List (String × Json)) (d : Document) :
    (putOthers fields d).get? pricesKey = d.get? pricesKey := by
  induction fields generalizing d with
  | nil => rfl
  | cons f fields ih =>
    rw [putOthers_cons, ih, putOther]
    split
    · rfl
    · next hkey => exact get?_insert_of_ne (Ne.symm hkey) ..

theorem foldl_putField_of_not_mem (h : pricesKey ∉ fields.map Prod.fst) (d : Document) :
    fields.foldl (putField incoming) d = putOthers fields d := by
  induction fields generalizing d with
  | nil => rfl
  | cons f fields ih =>
    rw [List.map_cons, List.mem_cons, not_or] at h
    rw [List.foldl_cons, putOthers_cons, putField, putOther, if_neg (Ne.symm h.1),
      if_neg (Ne.symm h.1), ih h.2]

theorem foldl_putField_eq (hnodup : (fields.map Prod.fst).Nodup) (d : Document) :
    fields.foldl (putField incoming) d = putOthers fields
      (if pricesKey ∈ fields.map Prod.fst then d.mergePrices incoming else d) := by
  induction fields generalizing d with
  | nil => rfl
  | cons f fields ih =>
    rw [List.map_cons, List.nodup_cons] at hnodup
    rw [List.foldl_cons, putOthers_cons]
    by_cases hkey : f.1 = pricesKey
    · have hrest : pricesKey ∉ fields.map Prod.fst := hkey ▸ hnodup.1
      have hmem : pricesKey ∈ (f :: fields).map Prod.fst := hkey ▸ List.mem_cons_self ..
      rw [putField, if_pos hkey, putOther, if_pos hkey, if_pos hmem,
        foldl_putField_of_not_mem hrest]
    · rw [putField, if_neg hkey, putOther, if_neg hkey, ih hnodup.2]
      simp only [List.map_cons, List.mem_cons, Ne.symm hkey, false_or]
      split
      · rw [mergePrices_insert hkey]
      · rfl

theorem get?_foldl_putField_of_not_mem (h : pricesKey ∉ fields.map Prod.fst) (d : Document) :
    (fields.foldl (putField incoming) d).get? pricesKey = d.get? pricesKey := by
  rw [foldl_putField_of_not_mem h, get?_putOthers_prices]

/-- Keys differ, so the prices are merged once at most, and no other field changes them. -/
theorem get?_foldl_putField_prices (hnodup : (fields.map Prod.fst).Nodup) (d : Document) :
    (fields.foldl (putField incoming) d).get? pricesKey =
      if pricesKey ∈ fields.map Prod.fst then (d.mergePrices incoming).get? pricesKey
      else d.get? pricesKey := by
  rw [foldl_putField_eq hnodup, get?_putOthers_prices]
  split <;> rfl

/-- A document with prices changes those of the one that it is put over by merging. -/
theorem get?_upsert_prices {existing incoming : Document} (hordered : incoming.Ordered)
    (hprices : (incoming.get? pricesKey).isSome) :
    (existing.upsert incoming).get? pricesKey =
      (existing.mergePrices incoming.prices).get? pricesKey := by
  have hkey : pricesKey ∈ incoming.fields.map Prod.fst := by
    by_contra habsent
    rw [get?, Assoc.get?_eq_none_iff.mpr habsent] at hprices
    cases hprices
  rw [upsert_eq, get?_foldl_putField_prices (Assoc.Ordered.nodup hordered), if_pos hkey]

/-- The prices of a document are merged into those of the one that it is put over. -/
theorem holdsPrices_upsert {existing incoming : Document} (hordered : incoming.Ordered)
    (hincoming : ∀ r ∈ incoming.prices, r.price.toInt.natAbs < PriceRecord.sizeLimit)
    (h : HoldsPrices (existing.get? pricesKey) prices) :
    HoldsPrices ((existing.upsert incoming).get? pricesKey) (merge prices incoming.prices) := by
  rw [upsert_eq, get?_foldl_putField_prices (Assoc.Ordered.nodup hordered)]
  split
  · exact holdsPrices_mergePrices h hincoming
  · next habsent =>
    have hnone : incoming.get? pricesKey = none := Assoc.get?_eq_none_iff.mpr habsent
    have hprices : incoming.prices = [] := by rw [Document.prices, hnone]
    rwa [hprices, PriceRecord.merge_nil]

/-! ### Stores -/

/-- Documents that may be put into a store: each key once, and prices that can be read back, each
for a slot of its own. -/
structure Storable (d : Document) : Prop where
  ordered : d.Ordered
  holds : HoldsPrices (d.get? pricesKey) d.prices
  distinct : (slots d.prices).Nodup
  small : ∀ r ∈ d.prices, r.price.toInt.natAbs < PriceRecord.sizeLimit

/-- The document that results from putting documents over an empty one in their order. -/
def store (docs : List Document) : Document := docs.foldl upsert empty

theorem store_concat (docs : List Document) (d : Document) :
    store (docs ++ [d]) = (store docs).upsert d := by
  rw [store, List.foldl_append]
  rfl

/-- One of the documents has a property, and it is the last of them that is concerned. -/
def Latest (docs : List Document) (has concerned : Document → Prop) : Prop :=
  ∃ before d after, docs = before ++ d :: after ∧ has d ∧ ∀ later ∈ after, ¬concerned later

theorem not_latest_nil {has concerned : Document → Prop} : ¬Latest [] has concerned := by
  rintro ⟨before, d, after, heq, -⟩
  simp at heq

theorem latest_concat {docs : List Document} {has concerned : Document → Prop} :
    Latest (docs ++ [d]) has concerned ↔ has d ∨ ¬concerned d ∧ Latest docs has concerned := by
  constructor
  · rintro ⟨before, e, after, heq, he, hafter⟩
    rcases List.eq_nil_or_concat after with rfl | ⟨after, last, rfl⟩
    · obtain ⟨-, hlast⟩ := List.append_inj' heq rfl
      cases hlast
      exact .inl he
    · rw [List.concat_eq_append, ← List.cons_append, ← List.append_assoc] at heq
      obtain ⟨rfl, hlast⟩ := List.append_inj' heq rfl
      cases hlast
      refine .inr ⟨hafter d (by simp), before, e, after, rfl, he, ?_⟩
      intro later hlater
      exact hafter later (by simp [hlater])
  · rintro (hd | ⟨hd, before, e, after, rfl, he, hafter⟩)
    · exact ⟨docs, d, [], rfl, hd, by simp⟩
    · refine ⟨before, e, after ++ [d], by simp, he, ?_⟩
      intro later hlater
      rcases List.mem_append.mp hlater with hlater | hlater
      · exact hafter later hlater
      · rw [List.mem_singleton.mp hlater]
        exact hd

/-- What a store holds of the documents that were put into it. -/
structure History (docs : List Document) (stored : Document) : Prop where
  /-- No two prices are for the same month and kind. -/
  distinct : (slots stored.prices).Nodup
  /-- A slot occurs if one of the documents has it. -/
  occurs : ∀ t, t ∈ slots stored.prices ↔ ∃ d ∈ docs, t ∈ slots d.prices
  /-- The slots stand in the order of their first appearance. -/
  ordered : slots stored.prices = (docs.flatMap fun d => slots d.prices).eraseDups
  /-- The price for a slot is that of the last document with the slot. -/
  latest : ∀ r, r ∈ stored.prices ↔
    Latest docs (fun d => r ∈ d.prices) fun d => r.slot ∈ slots d.prices
  /-- Another key occurs if one of the documents has it. -/
  keys : ∀ key, key ≠ pricesKey → ((stored.get? key).isSome ↔ ∃ d ∈ docs, (d.get? key).isSome)
  /-- The value under another key is that of the last document with the key. -/
  values : ∀ key, key ≠ pricesKey → ∀ v, stored.get? key = some v ↔
    Latest docs (fun d => d.get? key = some v) fun d => (d.get? key).isSome

theorem history_concat {docs : List Document} {stored : Document} (hd : Storable d)
    (hholds : HoldsPrices (stored.get? pricesKey) stored.prices) (h : History docs stored) :
    History (docs ++ [d]) (stored.upsert d) := by
  have hprices : (stored.upsert d).prices = merge stored.prices d.prices :=
    prices_of_holdsPrices (holdsPrices_upsert hd.ordered hd.small hholds)
  refine ⟨?_, ?_, ?_, ?_, ?_, ?_⟩
  · rw [hprices]
    exact PriceRecord.nodup_slots_merge h.distinct d.prices
  · intro t
    rw [hprices, PriceRecord.mem_slots_merge, h.occurs]
    simp
  · have hsame : (slots d.prices).removeAll (docs.flatMap fun d => slots d.prices).eraseDups =
        (slots d.prices).removeAll (docs.flatMap fun d => slots d.prices) := by
      simp only [List.removeAll, List.elem_eq_mem, List.mem_eraseDups]
    rw [hprices, PriceRecord.slots_merge, h.ordered, hsame, List.flatMap_append,
      List.eraseDups_append, List.flatMap_singleton]
  · intro r
    rw [hprices, PriceRecord.mem_merge h.distinct hd.distinct, h.latest, latest_concat, and_comm]
  · intro key hkey
    rw [get?_upsert_of_ne hd.ordered hkey, Option.isSome_or, Bool.or_eq_true, h.keys key hkey]
    simp [or_comm]
  · intro key hkey v
    rw [get?_upsert_of_ne hd.ordered hkey, latest_concat, Option.or_eq_some_iff,
      h.values key hkey v, Bool.not_eq_true, Option.isSome_eq_false_iff, Option.isNone_iff_eq_none]

theorem history_nil : History [] empty := by
  have hprices : empty.prices = [] := rfl
  have hnone : ∀ key, empty.get? key = none := fun _ => rfl
  refine ⟨List.nodup_nil, ?_, rfl, ?_, ?_, ?_⟩
  · intro t
    simp [hprices]
  · intro r
    simp [hprices, not_latest_nil]
  · intro key _
    simp [hnone]
  · intro key _ v
    simp [hnone, not_latest_nil]

/-- What putting documents one after another into an empty store leads to, with the form in which
the prices are stored. -/
theorem history_store {docs : List Document} (h : ∀ d ∈ docs, Storable d) :
    HoldsPrices ((store docs).get? pricesKey) (store docs).prices ∧ History docs (store docs) := by
  induction docs using List.reverseRecOn with
  | nil => exact ⟨.absent, history_nil⟩
  | append_singleton docs d ih =>
    obtain ⟨hholds, hhistory⟩ := ih fun e he => h e (List.mem_append_left _ he)
    have hd := h d (by simp)
    have hmerged := holdsPrices_upsert hd.ordered hd.small hholds
    rw [store_concat]
    refine ⟨?_, history_concat hd hholds hhistory⟩
    rw [prices_of_holdsPrices hmerged]
    exact hmerged

end TableImport.Document
