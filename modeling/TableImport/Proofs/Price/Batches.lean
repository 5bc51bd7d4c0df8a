import TableImport.Proofs.Keyed.Batches
import TableImport.Proofs.Price.Merge

/-! Lists of prices merged one after another: when two of them may be merged into one before, and
what becomes of their order. -/
namespace TableImport.PriceRecord
variable {a b : List PriceRecord}

theorem merge_merge (ha : (slots a).Nodup) (existing b : List PriceRecord) :
    merge (merge existing a) b = merge existing (merge a b) := by
  simp only [merge_eq]
  exact ((Keyed.putLaws slot).foldl_putAll ha b existing).symm

theorem merge_nil_left (ha : (slots a).Nodup) : merge [] a = a := by
  rw [merge_eq, Keyed.putAll_nil_left ha]

/-- The prices for a slot, in their order. -/
def ofSlot (t : Int32 × UInt32 × String) (prices : List PriceRecord) : List PriceRecord :=
  prices.filter fun r => r.slot = t

theorem ofSlot_merge (t : Int32 × UInt32 × String) (existing incoming : List PriceRecord) :
    ofSlot t (merge existing incoming) = merge (ofSlot t existing) (ofSlot t incoming) := by
  simp only [merge_eq]
  exact Keyed.filter_putAll t existing incoming

theorem ofSlot_eq_nil {t : Int32 × UInt32 × String} {prices : List PriceRecord}
    (h : t ∉ slots prices) : ofSlot t prices = [] := by
  rw [ofSlot, List.filter_eq_nil_iff]
  intro r hr hslot
  exact h (of_decide_eq_true hslot ▸ List.mem_map_of_mem hr)

/-- Prices for different slots can be merged in either order. -/
theorem ofSlot_merge_merge (hab : ∀ t ∈ slots a, t ∉ slots b) (existing : List PriceRecord)
    (t : Int32 × UInt32 × String) :
    ofSlot t (merge (merge existing a) b) = ofSlot t (merge (merge existing b) a) := by
  simp only [ofSlot_merge]
  by_cases ha : t ∈ slots a
  · rw [ofSlot_eq_nil (hab t ha), merge_nil, merge_nil]
  · rw [ofSlot_eq_nil ha, merge_nil, merge_nil]

/-- A batch with one price for each slot can take another batch before both are merged. Of batches
that share no slot, each slot gets the same prices in either order. -/
theorem merge_batches (a b : List PriceRecord) :
    ((slots a).Nodup → ∀ existing,
      merge (merge existing a) b = merge existing (merge a b)) ∧
    ((∀ t ∈ slots a, t ∉ slots b) → ∀ existing t,
      ofSlot t (merge (merge existing a) b) = ofSlot t (merge (merge existing b) a)) ∧
    ((slots a).Nodup → (slots b).Nodup → (∀ t ∈ slots a, t ∉ slots b) → ∀ t,
      ofSlot t (merge a b) = ofSlot t (merge b a)) := by
  refine ⟨fun ha existing => merge_merge ha existing b, ofSlot_merge_merge, ?_⟩
  intro ha hb hab t
  have hsame := ofSlot_merge_merge hab [] t
  rwa [merge_nil_left ha, merge_nil_left hb] at hsame

/-- A price for a month of 2024. -/
def ofMonth (month : UInt32) (price : Int64) : PriceRecord :=
  ⟨2024, month, "video", price, .confirmed⟩

/-- A list with two prices for January takes a batch for January and February and one for March. -/
theorem merge_batches_spring :
    (slots [ofMonth 1 11, ofMonth 2 12]).Nodup ∧ (slots [ofMonth 3 13]).Nodup ∧
      (∀ t ∈ slots [ofMonth 1 11, ofMonth 2 12], t ∉ slots [ofMonth 3 13]) ∧
      merge (merge [ofMonth 1 9, ofMonth 1 10] [ofMonth 1 11, ofMonth 2 12]) [ofMonth 3 13] =
        merge [ofMonth 1 9, ofMonth 1 10] (merge [ofMonth 1 11, ofMonth 2 12] [ofMonth 3 13]) ∧
      (∀ t, ofSlot t (merge (merge [ofMonth 1 9] [ofMonth 1 11, ofMonth 2 12]) [ofMonth 3 13]) =
        ofSlot t (merge (merge [ofMonth 1 9] [ofMonth 3 13]) [ofMonth 1 11, ofMonth 2 12])) ∧
      ∀ t, ofSlot t (merge [ofMonth 1 11, ofMonth 2 12] [ofMonth 3 13]) =
        ofSlot t (merge [ofMonth 3 13] [ofMonth 1 11, ofMonth 2 12]) := by
  have ha : (slots [ofMonth 1 11, ofMonth 2 12]).Nodup := by decide
  have hb : (slots [ofMonth 3 13]).Nodup := by decide
  have hab : ∀ t ∈ slots [ofMonth 1 11, ofMonth 2 12], t ∉ slots [ofMonth 3 13] := by decide
  obtain ⟨hcombined, hswapped, hordered⟩ :=
    merge_batches [ofMonth 1 11, ofMonth 2 12] [ofMonth 3 13]
  exact ⟨ha, hb, hab, hcombined ha _, hswapped hab _, hordered ha hb hab⟩

/-- A batch that repeats a slot has to be merged first. -/
example : merge (merge [] [ofMonth 1 10, ofMonth 1 11]) [ofMonth 1 12] = [ofMonth 1 12] ∧
    merge [] (merge [ofMonth 1 10, ofMonth 1 11] [ofMonth 1 12]) = [ofMonth 1 11] := by
  decide

end TableImport.PriceRecord
