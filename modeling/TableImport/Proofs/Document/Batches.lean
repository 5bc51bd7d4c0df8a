import TableImport.Proofs.Document.Entries
import TableImport.Proofs.Document.Upsert
import TableImport.Proofs.Price.Batches

/-! Documents put over a stored one, one after another: the same document again changes nothing,
and two of them may be put over each other before. -/
namespace TableImport

/-- A field set in a map is put after the other fields of the map, wherever its key stands. -/
theorem Assoc.foldl_insert {α σ : Type} {put : String × α → σ → σ}
    (laws : Keyed.PutLaws Prod.fst (fun _ _ => True) put) {m : Assoc α} (h : Ordered m)
    (key : String) (value : α) (s : σ) :
    (insert key value m).foldl (fun s f => put f s) s =
      put (key, value) (m.foldl (fun s f => put f s) s) := by
  induction m generalizing s with
  | nil => rfl
  | cons p m ih =>
    obtain ⟨k, v⟩ := p
    obtain ⟨hk, hm⟩ := List.pairwise_cons.mp h
    unfold Assoc.insert
    by_cases heq : k = key
    · subst heq
      have hrest : k ∉ m.map Prod.fst := (List.nodup_cons.mp h.nodup).1
      have hkey : (k, value).1 = (k, v).1 := rfl
      rw [if_pos rfl, List.foldl_cons, List.foldl_cons, ← laws.put_put hkey s]
      exact laws.foldl_put_comm trivial hrest
    · rw [if_neg heq]
      by_cases hlt : key < k
      · have hrest : key ∉ ((k, v) :: m).map Prod.fst := by
          rw [List.map_cons, List.mem_cons, not_or]
          refine ⟨Ne.symm heq, ?_⟩
          intro hmem
          obtain ⟨p, hp, rfl⟩ := List.mem_map.mp hmem
          exact String.lt_irrefl p.1 (String.lt_trans hlt (hk p hp))
        rw [if_pos hlt, List.foldl_cons]
        exact laws.foldl_put_comm trivial hrest
      · rw [if_neg hlt, List.foldl_cons, List.foldl_cons, ih hm]

namespace Document
open PriceRecord (slot slots merge)

variable {a b d : Document} {key : String} {fields : List (String × Json)}
  {incoming : List PriceRecord}

/-! ### Prices -/

theorem takesPrices_insert_array (d : Document) (items : List Json) :
    (d.insert pricesKey (.array items)).TakesPrices :=
  .inr (.inr ⟨items, get?_insert_self ..⟩)

theorem isSome_get?_mergePrices (d : Document) (incoming : List PriceRecord) :
    ((d.mergePrices incoming).get? pricesKey).isSome := by
  by_cases h : d.TakesPrices
  · rw [mergePrices_eq h, get?_insert_self, Option.isSome_some]
  · rw [(mergePrices_of_not_takesPrices h incoming).1, Option.isSome_iff_ne_none]
    exact fun hnone => h (.inl hnone)

theorem mergePrices_mergePrices_eq (h : d.TakesPrices) (a b : List PriceRecord) :
    (d.mergePrices a).mergePrices b = d.insert pricesKey
      (.array (b.foldl (fun items r => putPrice r items)
        (a.foldl (fun items r => putPrice r items) d.priceItems))) := by
  rw [mergePrices_eq h, mergePrices_eq (takesPrices_insert_array ..), priceItems_insert_array,
    insert_insert]

theorem mergePrices_mergePrices_self (d : Document) (incoming : List PriceRecord) :
    (d.mergePrices incoming).mergePrices incoming = d.mergePrices incoming := by
  by_cases h : d.TakesPrices
  · rw [mergePrices_mergePrices_eq h, putLaws_putPrice.foldl_foldl_self, mergePrices_eq h]
  · simp only [(mergePrices_of_not_takesPrices h incoming).1]

/-- A list with one price for each slot can take another list before both are merged. -/
theorem mergePrices_mergePrices {a : List PriceRecord} (ha : (slots a).Nodup) (d : Document)
    (b : List PriceRecord) : (d.mergePrices a).mergePrices b = d.mergePrices (merge a b) := by
  by_cases h : d.TakesPrices
  · rw [mergePrices_mergePrices_eq h, mergePrices_eq h, PriceRecord.merge_eq,
      putLaws_putPrice.foldl_putAll ha]
  · simp only [(mergePrices_of_not_takesPrices h _).1]

/-! ### The same document again -/

theorem putLaws_putField (incoming : List PriceRecord) :
    Keyed.PutLaws Prod.fst (fun _ _ => True) fun f d => putField incoming d f where
  has_self _ _ := trivial
  has_put _ _ := trivial
  put_put {f g} hkey d := by
    simp only [putField, hkey]
    split
    · exact mergePrices_mergePrices_self d incoming
    · exact insert_insert ..
  put_comm {f g d} hne _ := by
    unfold putField
    by_cases hf : f.1 = pricesKey
    · have hg : g.1 ≠ pricesKey := fun hg => hne (hf.trans hg.symm)
      rw [if_pos hf, if_neg hg, if_pos hf, if_neg hg, mergePrices_insert hg]
    · rw [if_neg hf, if_neg hf]
      by_cases hg : g.1 = pricesKey
      · rw [if_pos hg, if_pos hg, mergePrices_insert hf]
      · rw [if_neg hg, if_neg hg, insert_comm hne]

/-- Putting the same document over another one again changes nothing. -/
theorem upsert_upsert_self (existing incoming : Document) :
    (existing.upsert incoming).upsert incoming = existing.upsert incoming :=
  (putLaws_putField incoming.prices).foldl_foldl_self incoming.fields existing

/-! ### Two documents -/

theorem putLaws_putOther : Keyed.PutLaws Prod.fst (fun _ _ => True) putOther where
  has_self _ _ := trivial
  has_put _ _ := trivial
  put_put {f g} hkey d := by
    simp only [putOther, hkey]
    split
    · rfl
    · exact insert_insert ..
  put_comm {f g d} hne _ := by
    unfold putOther
    by_cases hf : f.1 = pricesKey
    · simp only [if_pos hf]
    · by_cases hg : g.1 = pricesKey
      · simp only [if_pos hg]
      · simp only [if_neg hf, if_neg hg, insert_comm hne]

/-- Merges the prices of a document, if it has any, into those of another. -/
def upsertPrices (existing incoming : Document) : Document :=
  if (incoming.get? pricesKey).isSome then existing.mergePrices incoming.prices else existing

/-- The prices may be merged before the other fields are put. -/
theorem upsert_eq_putOthers {incoming : Document} (h : incoming.Ordered) (existing : Document) :
    existing.upsert incoming = putOthers incoming.fields (existing.upsertPrices incoming) := by
  have hkey : pricesKey ∈ incoming.fields.map Prod.fst ↔ (incoming.get? pricesKey).isSome := by
    rw [← not_iff_not, ← Assoc.get?_eq_none_iff, Option.not_isSome_iff_eq_none]
    rfl
  rw [upsert_eq, foldl_putField_eq (Assoc.Ordered.nodup h), upsertPrices]
  simp only [hkey]

theorem mergePrices_putOthers (fields : List (String × Json)) (d : Document)
    (incoming : List PriceRecord) :
    (putOthers fields d).mergePrices incoming = putOthers fields (d.mergePrices incoming) := by
  induction fields generalizing d with
  | nil => rfl
  | cons f fields ih =>
    have hput : (putOther f d).mergePrices incoming = putOther f (d.mergePrices incoming) := by
      unfold putOther
      split
      · rfl
      · next hkey => exact mergePrices_insert hkey ..
    rw [putOthers_cons, putOthers_cons, ih, hput]

theorem upsertPrices_putOthers (fields : List (String × Json)) (d incoming : Document) :
    (putOthers fields d).upsertPrices incoming = putOthers fields (d.upsertPrices incoming) := by
  unfold upsertPrices
  split
  · exact mergePrices_putOthers fields d incoming.prices
  · rfl

theorem Ordered.putField (h : d.Ordered) (incoming : List PriceRecord) (f : String × Json) :
    (putField incoming d f).Ordered := by
  unfold Document.putField
  split
  · exact h.mergePrices incoming
  · exact h.insert f.1 f.2

theorem Ordered.foldl_putField (h : d.Ordered) (incoming : List PriceRecord)
    (fields : List (String × Json)) : (fields.foldl (Document.putField incoming) d).Ordered := by
  induction fields generalizing d with
  | nil => exact h
  | cons f fields ih => exact ih (h.putField incoming f)

/-- A field that is put over a document comes after the fields of the document. -/
theorem putOthers_putField (h : d.Ordered) (f : String × Json) (s : Document) :
    putOthers (putField incoming d f).fields s = putOther f (putOthers d.fields s) := by
  by_cases hkey : f.1 = pricesKey
  · have hother : putOther f (putOthers d.fields s) = putOthers d.fields s := if_pos hkey
    rw [putField, if_pos hkey, hother]
    by_cases htakes : d.TakesPrices
    · rw [mergePrices_eq htakes]
      exact (Assoc.foldl_insert putLaws_putOther h pricesKey _ s).trans (if_pos rfl)
    · rw [(mergePrices_of_not_takesPrices htakes incoming).1]
  · rw [putField, if_neg hkey]
    exact Assoc.foldl_insert putLaws_putOther h f.1 f.2 s

theorem putOthers_foldl_putField (h : d.Ordered) (fields : List (String × Json)) (s : Document) :
    putOthers (fields.foldl (putField incoming) d).fields s =
      putOthers fields (putOthers d.fields s) := by
  induction fields generalizing d s with
  | nil => rfl
  | cons f fields ih =>
    rw [List.foldl_cons, ih (h.putField incoming f), putOthers_putField h, putOthers_cons]

/-- Prices of which each has a slot of its own may be merged into others before both are. -/
theorem upsertPrices_upsertPrices (ha : Storable a) (hb : Storable b) (existing : Document) :
    (existing.upsertPrices a).upsertPrices b = existing.upsertPrices (a.upsert b) := by
  have hprices : (a.upsert b).prices = merge a.prices b.prices :=
    prices_of_holdsPrices (holdsPrices_upsert hb.ordered hb.small ha.holds)
  cases hbkey : b.get? pricesKey with
  | none =>
    have hsame : (a.upsert b).get? pricesKey = a.get? pricesKey :=
      get?_foldl_putField_of_not_mem (Assoc.get?_eq_none_iff.mp hbkey) a
    have hnone : b.prices = [] := by rw [prices, hbkey]
    simp only [upsertPrices, hsame, hprices, hnone, PriceRecord.merge_nil, hbkey,
      Option.isSome_none, Bool.false_eq_true, if_false]
  | some v =>
    have hsome : ((a.upsert b).get? pricesKey).isSome := by
      rw [get?_upsert_prices hb.ordered (by rw [hbkey]; rfl)]
      exact isSome_get?_mergePrices a b.prices
    cases hakey : a.get? pricesKey with
    | none =>
      have hnone : a.prices = [] := by rw [prices, hakey]
      simp only [upsertPrices, hsome, hprices, hnone, PriceRecord.merge_nil_left hb.distinct,
        hakey, hbkey, Option.isSome_none, Option.isSome_some, Bool.false_eq_true, if_false, if_true]
    | some w =>
      simp only [upsertPrices, hsome, hprices, hakey, hbkey, Option.isSome_some, if_true,
        mergePrices_mergePrices ha.distinct]

/-- Two documents may be put over each other before they are put over a third. -/
theorem upsert_upsert (ha : Storable a) (hb : Storable b) (existing : Document) :
    (existing.upsert a).upsert b = existing.upsert (a.upsert b) := by
  have hab : (a.upsert b).Ordered := ha.ordered.foldl_putField b.prices b.fields
  have hothers (s : Document) : putOthers (a.upsert b).fields s =
      putOthers b.fields (putOthers a.fields s) :=
    putOthers_foldl_putField ha.ordered b.fields s
  calc (existing.upsert a).upsert b
    _ = putOthers b.fields
        ((putOthers a.fields (existing.upsertPrices a)).upsertPrices b) := by
      rw [upsert_eq_putOthers ha.ordered, upsert_eq_putOthers hb.ordered]
    _ = putOthers b.fields (putOthers a.fields (existing.upsertPrices (a.upsert b))) := by
      rw [upsertPrices_putOthers, upsertPrices_upsertPrices ha hb]
    _ = existing.upsert (a.upsert b) := by
      rw [← hothers, upsert_eq_putOthers hab]

end Document
end TableImport
