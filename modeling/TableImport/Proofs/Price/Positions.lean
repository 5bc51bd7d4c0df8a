import TableImport.Proofs.Keyed.Batches
import TableImport.Proofs.Keyed.Positions
import TableImport.Proofs.Price.Merge

/-! What merging leaves at each position of a list of prices. -/
namespace TableImport.PriceRecord
variable {t : Int32 × UInt32 × String} {r : PriceRecord}
  {prices existing incoming : List PriceRecord} {k : Nat}

/-- Where the first price for a slot stands. -/
def position (t : Int32 × UInt32 × String) (prices : List PriceRecord) : Nat :=
  (slots prices).idxOf t

theorem position_eq (t : Int32 × UInt32 × String) (prices : List PriceRecord) :
    position t prices = Keyed.position slot t prices := rfl

/-- The first position of a slot takes the last incoming price for it. -/
theorem getElem?_merge_of_mem (h : t ∈ slots incoming) :
    (merge existing incoming)[position t (merge existing incoming)]? =
      Keyed.last? slot t incoming := by
  rw [position_eq, merge_eq]
  exact Keyed.getElem?_putAll_of_mem h

/-- The other positions keep what they have. -/
theorem getElem?_merge_of_forall_ne
    (h : ∀ t ∈ slots incoming, position t (merge existing incoming) ≠ k) :
    (merge existing incoming)[k]? = existing[k]? := by
  simp only [position_eq, merge_eq] at h ⊢
  exact Keyed.getElem?_putAll_of_forall_ne h

/-- A price for another slot stays where it is. -/
theorem getElem?_merge_of_not_mem (hk : existing[k]? = some r) (h : r.slot ∉ slots incoming) :
    (merge existing incoming)[k]? = some r := by
  rw [merge_eq]
  exact Keyed.getElem?_putAll_of_not_mem hk h

/-- Merging the same prices again changes nothing. -/
theorem merge_merge_self (existing incoming : List PriceRecord) :
    merge (merge existing incoming) incoming = merge existing incoming := by
  simp only [merge_eq]
  exact (Keyed.putLaws slot).foldl_foldl_self incoming existing

/-- Merging keeps the slots in their order and adds the new ones in the order in which they come
first. The last incoming price for a slot takes the first position of it, and all other positions
keep what they have. -/
theorem merge_contents (existing incoming : List PriceRecord) :
    slots (merge existing incoming) =
        slots existing ++ ((slots incoming).removeAll (slots existing)).eraseDups ∧
      (∀ t ∈ slots incoming,
        (merge existing incoming)[position t (merge existing incoming)]? =
          Keyed.last? slot t incoming) ∧
      (∀ k, (∀ t ∈ slots incoming, position t (merge existing incoming) ≠ k) →
        (merge existing incoming)[k]? = existing[k]?) ∧
      ((slots existing).Nodup → (slots (merge existing incoming)).Nodup) ∧
      (∀ (k : Nat) (r : PriceRecord), existing[k]? = some r → r.slot ∉ slots incoming →
        (merge existing incoming)[k]? = some r) ∧
      merge (merge existing incoming) incoming = merge existing incoming :=
  ⟨slots_merge existing incoming, fun _ => getElem?_merge_of_mem,
    fun _ => getElem?_merge_of_forall_ne, fun h => nodup_slots_merge h incoming,
    fun _ _ => getElem?_merge_of_not_mem, merge_merge_self existing incoming⟩

end TableImport.PriceRecord
