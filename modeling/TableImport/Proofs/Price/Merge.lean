import TableImport.Price.Basic
import TableImport.Proofs.Keyed

/-! Lists of prices by their slots: what merging leaves in each, and in which order. -/
namespace TableImport.PriceRecord

/-- What a price is for: its month and kind. -/
def slot (r : PriceRecord) : Int32 × UInt32 × String := (r.year, r.month, r.kind)

theorem sameSlot_iff {a b : PriceRecord} : a.SameSlot b ↔ a.slot = b.slot := by
  simp [SameSlot, slot]

def slots (prices : List PriceRecord) : List (Int32 × UInt32 × String) := prices.map slot

@[simp] theorem slots_nil : slots [] = [] := rfl

@[simp] theorem slots_cons (r : PriceRecord) (prices : List PriceRecord) :
    slots (r :: prices) = r.slot :: slots prices := rfl

variable {r s : PriceRecord} {existing incoming : List PriceRecord}

theorem put_eq (r : PriceRecord) (prices : List PriceRecord) :
    put r prices = Keyed.put slot r prices := by
  induction prices with
  | nil => rfl
  | cons s prices ih => simp only [put, Keyed.put, sameSlot_iff, ih]

theorem merge_eq (existing incoming : List PriceRecord) :
    merge existing incoming = Keyed.putAll slot existing incoming := by
  simp only [merge, Keyed.putAll, put_eq]

theorem put_cons_of_slot_eq (h : s.slot = r.slot) (prices : List PriceRecord) :
    put r (s :: prices) = r :: prices := by
  rw [put_eq, Keyed.put_cons_of_eq h]

theorem put_cons_of_slot_ne (h : s.slot ≠ r.slot) (prices : List PriceRecord) :
    put r (s :: prices) = s :: put r prices := by
  rw [put_eq, put_eq, Keyed.put_cons_of_ne h]

/-- The slots are those of the existing prices, and then the new ones of the incoming prices in the
order of their first appearance. -/
theorem slots_merge (existing incoming : List PriceRecord) :
    slots (merge existing incoming) =
      slots existing ++ ((slots incoming).removeAll (slots existing)).eraseDups := by
  rw [merge_eq]
  exact Keyed.map_putAll slot existing incoming

theorem nodup_slots_merge (h : (slots existing).Nodup) (incoming : List PriceRecord) :
    (slots (merge existing incoming)).Nodup := by
  rw [merge_eq]
  exact (Keyed.nodup_putAll_iff slot existing incoming).mpr h

theorem mem_slots_merge {t : Int32 × UInt32 × String} :
    t ∈ slots (merge existing incoming) ↔ t ∈ slots existing ∨ t ∈ slots incoming := by
  rw [merge_eq]
  exact Keyed.mem_map_putAll slot

/-- Of two lists without repeated slots, merging keeps the incoming prices and those of the
existing ones whose slots are not among theirs. -/
theorem mem_merge (hexisting : (slots existing).Nodup) (hincoming : (slots incoming).Nodup) :
    s ∈ merge existing incoming ↔ s ∈ incoming ∨ s ∈ existing ∧ s.slot ∉ slots incoming := by
  rw [merge_eq]
  exact Keyed.mem_putAll hexisting hincoming

end TableImport.PriceRecord
