import Mathlib.Data.Finset.Card
import TableImport.Proofs.Keyed

/-! What is left at each position of a list when elements are put in by their keys, and how long the
list becomes. -/
namespace TableImport.Keyed
variable {α κ : Type} [DecidableEq κ] [BEq κ] [LawfulBEq κ] {key : α → κ} {t : κ} {a : α}
  {as bs : List α} {i : Nat}

/-- Where the first element of a key stands. -/
def position (key : α → κ) (t : κ) (as : List α) : Nat := (as.map key).idxOf t

theorem position_cons (t : κ) (a : α) (as : List α) :
    position key t (a :: as) = if key a = t then 0 else position key t as + 1 := by
  rw [position, List.map_cons, List.idxOf_cons, cond_eq_ite]
  simp only [beq_iff_eq, position]

theorem getElem?_position (t : κ) (as : List α) : as[position key t as]? = first? key t as := by
  induction as with
  | nil => rfl
  | cons a as ih =>
    rw [position_cons, first?_cons]
    split
    · rfl
    · rw [List.getElem?_cons_succ, ih]

/-- The first element of a key that is there stays the first when others are put in. -/
theorem position_putAll (h : t ∈ as.map key) (bs : List α) :
    position key t (putAll key as bs) = position key t as := by
  rw [position, map_putAll]
  exact List.idxOf_append_of_mem h

/-- Only the first position of its key takes the element. -/
theorem getElem?_put (a : α) (as : List α) (i : Nat) :
    (put key a as)[i]? = if position key (key a) (put key a as) = i then some a else as[i]? := by
  induction as generalizing i with
  | nil => cases i <;> simp [put, position]
  | cons b as ih =>
    by_cases h : key b = key a
    · rw [put_cons_of_eq h, position_cons, if_pos rfl]
      cases i <;> simp
    · rw [put_cons_of_ne h, position_cons, if_neg h]
      cases i with
      | zero => simp
      | succ i => simp [ih]

/-- The first position of a key takes the last element put in with it. -/
theorem getElem?_putAll_of_mem (h : t ∈ bs.map key) :
    (putAll key as bs)[position key t (putAll key as bs)]? = last? key t bs := by
  obtain ⟨b, hb⟩ : ∃ b, last? key t bs = some b :=
    Option.ne_none_iff_exists'.mp fun hnone => last?_eq_none_iff.mp hnone h
  rw [getElem?_position, first?_putAll, hb, Option.some_or]

/-- The other positions keep what they have. -/
theorem getElem?_putAll_of_forall_ne
    (h : ∀ t ∈ bs.map key, position key t (putAll key as bs) ≠ i) :
    (putAll key as bs)[i]? = as[i]? := by
  induction bs generalizing as with
  | nil => rfl
  | cons b bs ih =>
    rw [List.map_cons, List.forall_mem_cons, putAll_cons] at h
    obtain ⟨hfirst, hlater⟩ := h
    have hthere : key b ∈ (put key b as).map key := by
      rw [map_put]
      split <;> simp_all
    rw [position_putAll hthere] at hfirst
    rw [putAll_cons, ih hlater, getElem?_put, if_neg hfirst]

/-- A position that is there keeps its key. -/
theorem getElem?_map_putAll (key : α → κ) (ha : as[i]? = some a) (bs : List α) :
    ((putAll key as bs).map key)[i]? = some (key a) := by
  have hi : i < (as.map key).length := by simpa using (List.getElem?_eq_some_iff.mp ha).1
  rw [map_putAll, List.getElem?_append_left hi, List.getElem?_map, ha]
  rfl

/-- Of the elements that are there, the first of a key gives way to the last one put in with it,
and all others stay. -/
theorem getElem?_putAll_of_getElem? (ha : as[i]? = some a) (bs : List α) :
    (putAll key as bs)[i]? =
      some (if position key (key a) as = i then (last? key (key a) bs).getD a else a) := by
  have hmem : key a ∈ as.map key := List.mem_map_of_mem (List.mem_of_getElem? ha)
  have hposition := position_putAll hmem bs
  by_cases hi : position key (key a) as = i
  · have hfirst : first? key (key a) as = some a := by rw [← getElem?_position, hi, ha]
    rw [if_pos hi, ← hi, ← hposition, getElem?_position, first?_putAll, hfirst]
    cases last? key (key a) bs <;> rfl
  · rw [if_neg hi, ← ha]
    -- A position that is taken is the first one of its key, and its key is still that of `a`.
    refine getElem?_putAll_of_forall_ne ?_
    rintro t ht rfl
    have hkey := getElem?_map_putAll key ha bs
    have hthere : t ∈ (putAll key as bs).map key := by
      rw [mem_map_putAll]
      exact .inr ht
    rw [position, List.getElem?_idxOf hthere] at hkey
    obtain rfl := Option.some.inj hkey
    exact hi hposition.symm

/-- An element of another key stays where it is. -/
theorem getElem?_putAll_of_not_mem (ha : as[i]? = some a) (h : key a ∉ bs.map key) :
    (putAll key as bs)[i]? = some a := by
  rw [getElem?_putAll_of_getElem? ha, last?_eq_none_iff.mpr h, Option.getD_none, ite_self]

theorem nodup_eraseDups (ts : List κ) : ts.eraseDups.Nodup := by
  have hkeys : (putAll id [] ts).map id = ts.eraseDups := by
    rw [map_putAll]
    simp [List.removeAll]
  rw [← hkeys, nodup_putAll_iff]
  exact List.nodup_nil

/-- The list grows by one for each key that is new. -/
theorem length_putAll (key : α → κ) (as bs : List α) :
    (putAll key as bs).length =
      as.length + ((bs.map key).toFinset \ (as.map key).toFinset).card := by
  have hnew : (((bs.map key).removeAll (as.map key)).eraseDups).toFinset =
      (bs.map key).toFinset \ (as.map key).toFinset := by
    ext t
    simp [List.removeAll]
  have hlength := congrArg List.length (map_putAll key as bs)
  rw [List.length_map, List.length_append, List.length_map] at hlength
  rw [hlength, ← hnew, List.toFinset_card_of_nodup (nodup_eraseDups _)]

end TableImport.Keyed
