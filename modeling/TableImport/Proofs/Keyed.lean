import Mathlib.Data.List.Nodup

/-! Lists in which an element takes the place of the first one with its key, or comes last. -/
namespace TableImport.Keyed
variable {α κ : Type} [DecidableEq κ] {key : α → κ} {a b : α} {as bs : List α}

def put (key : α → κ) (a : α) : List α → List α
  | [] => [a]
  | b :: rest => if key b = key a then a :: rest else b :: put key a rest

/-- Elements put in one after another. -/
def putAll (key : α → κ) (as bs : List α) : List α := bs.foldl (fun as b => put key b as) as

@[simp] theorem putAll_nil (as : List α) : putAll key as [] = as := rfl

@[simp] theorem putAll_cons (as bs : List α) (b : α) :
    putAll key as (b :: bs) = putAll key (put key b as) bs := rfl

theorem put_cons_of_eq (h : key b = key a) (as : List α) : put key a (b :: as) = a :: as :=
  if_pos h

theorem put_cons_of_ne (h : key b ≠ key a) (as : List α) :
    put key a (b :: as) = b :: put key a as :=
  if_neg h

/-! ### Keys -/

section
variable [BEq κ] [LawfulBEq κ]

/-- A key that is there keeps its place; a new one comes last. -/
theorem map_put (key : α → κ) (a : α) (as : List α) :
    (put key a as).map key =
      if key a ∈ as.map key then as.map key else as.map key ++ [key a] := by
  induction as with
  | nil => rfl
  | cons b as ih =>
    by_cases h : key b = key a
    · simp [put_cons_of_eq h, h]
    · rw [put_cons_of_ne h, List.map_cons, ih, List.map_cons]
      simp only [List.mem_cons, Ne.symm h, false_or]
      split <;> rfl

/-- The keys are those that were there, and then the new ones in the order of their first
appearance. -/
theorem map_putAll (key : α → κ) (as bs : List α) :
    (putAll key as bs).map key =
      as.map key ++ ((bs.map key).removeAll (as.map key)).eraseDups := by
  induction bs generalizing as with
  | nil => simp [List.removeAll]
  | cons b bs ih =>
    rw [putAll_cons, ih, map_put, List.map_cons, List.cons_removeAll]
    by_cases h : key b ∈ as.map key
    · simp [h]
    · have hlater : (bs.map key).removeAll (as.map key ++ [key b]) =
          ((bs.map key).removeAll (as.map key)).filter fun k => !k == key b := by
        simp only [List.removeAll, List.filter_filter, List.elem_eq_mem, List.mem_append,
          List.mem_singleton, Bool.decide_or, Bool.not_or, Bool.beq_eq_decide_eq, Bool.and_comm]
      simp [h, hlater, List.eraseDups_cons]

theorem mem_map_putAll (key : α → κ) {k : κ} :
    k ∈ (putAll key as bs).map key ↔ k ∈ as.map key ∨ k ∈ bs.map key := by
  rw [map_putAll, List.mem_append, List.mem_eraseDups, List.removeAll, List.mem_filter]
  simp only [List.elem_eq_mem, Bool.not_eq_true', decide_eq_false_iff_not]
  tauto

theorem nodup_put_iff {a : α} : ((put key a as).map key).Nodup ↔ (as.map key).Nodup := by
  rw [map_put]
  split
  · exact Iff.rfl
  · next hnew =>
    rw [← List.concat_eq_append, List.nodup_concat]
    exact and_iff_right hnew

theorem nodup_putAll_iff (key : α → κ) (as bs : List α) :
    ((putAll key as bs).map key).Nodup ↔ (as.map key).Nodup := by
  induction bs generalizing as with
  | nil => exact Iff.rfl
  | cons b bs ih => rw [putAll_cons, ih, nodup_put_iff]

end

/-! ### Elements -/

theorem mem_put (h : (as.map key).Nodup) :
    b ∈ put key a as ↔ b = a ∨ b ∈ as ∧ key b ≠ key a := by
  induction as with
  | nil => simp [put]
  | cons c as ih =>
    rw [List.map_cons, List.nodup_cons] at h
    by_cases hkey : key c = key a
    · have hrest : b ∈ as → key b ≠ key a := by
        intro hb hsame
        exact h.1 (hkey.trans hsame.symm ▸ List.mem_map_of_mem hb)
      rw [put_cons_of_eq hkey, List.mem_cons, List.mem_cons]
      grind
    · rw [put_cons_of_ne hkey, List.mem_cons, ih h.2, List.mem_cons]
      grind

/-- Into a list without repeated keys, elements of different keys are all put, and only those that
have none of their keys stay. -/
theorem mem_putAll (has : (as.map key).Nodup) (hbs : (bs.map key).Nodup) :
    a ∈ putAll key as bs ↔ a ∈ bs ∨ a ∈ as ∧ key a ∉ bs.map key := by
  induction bs generalizing as with
  | nil => simp
  | cons b bs ih =>
    rw [List.map_cons, List.nodup_cons] at hbs
    rw [putAll_cons, ih (nodup_put_iff.mpr has) hbs.2, mem_put has, List.map_cons, List.mem_cons,
      List.mem_cons]
    grind

/-! ### The first and the last element of a key -/

def first? (key : α → κ) (k : κ) (as : List α) : Option α := as.find? fun a => decide (key a = k)

def last? (key : α → κ) (k : κ) (as : List α) : Option α :=
  as.findRev? fun a => decide (key a = k)

theorem first?_cons (k : κ) (a : α) (as : List α) :
    first? key k (a :: as) = if key a = k then some a else first? key k as := by
  simp only [first?, List.find?_cons]
  split <;> simp_all

theorem last?_append (k : κ) (as bs : List α) :
    last? key k (as ++ bs) = (last? key k bs).or (last? key k as) := by
  simp only [last?, List.findRev?_eq_find?_reverse, List.reverse_append, List.find?_append]

theorem last?_singleton (k : κ) (a : α) :
    last? key k [a] = if key a = k then some a else none := by
  rw [last?, List.findRev?_eq_find?_reverse]
  exact first?_cons k a []

theorem last?_cons (k : κ) (a : α) (as : List α) :
    last? key k (a :: as) = (last? key k as).or (if key a = k then some a else none) := by
  rw [← List.singleton_append, last?_append, last?_singleton]

theorem first?_eq_none_iff {k : κ} : first? key k as = none ↔ k ∉ as.map key := by
  simp [first?, List.find?_eq_none]

theorem last?_eq_none_iff {k : κ} : last? key k as = none ↔ k ∉ as.map key := by
  simp [last?, List.findRev?_eq_find?_reverse, List.find?_eq_none]

theorem mem_of_last? {k : κ} (h : last? key k as = some a) : a ∈ as ∧ key a = k := by
  rw [last?, List.findRev?_eq_find?_reverse] at h
  exact ⟨List.mem_reverse.mp (List.mem_of_find?_eq_some h), by simpa using List.find?_some h⟩

theorem first?_put (k : κ) (a : α) (as : List α) :
    first? key k (put key a as) = if key a = k then some a else first? key k as := by
  induction as with
  | nil => exact first?_cons k a []
  | cons b as ih =>
    by_cases h : key b = key a
    · rw [put_cons_of_eq h, first?_cons, first?_cons, h]
      split <;> rfl
    · rw [put_cons_of_ne h, first?_cons, ih, first?_cons]
      split
      · next hb => rw [if_neg fun ha => h (hb.trans ha.symm)]
      · rfl

/-- The first element of a key is the last one put in, or else the first that was there. -/
theorem first?_putAll (k : κ) (as bs : List α) :
    first? key k (putAll key as bs) = (last? key k bs).or (first? key k as) := by
  induction bs generalizing as with
  | nil => rfl
  | cons b bs ih =>
    rw [putAll_cons, ih, first?_put, last?_cons, Option.or_assoc]
    split <;> rfl

theorem first?_of_mem (h : (as.map key).Nodup) (ha : a ∈ as) : first? key (key a) as = some a := by
  induction as with
  | nil => cases ha
  | cons b as ih =>
    rw [List.map_cons, List.nodup_cons] at h
    rw [first?_cons]
    rcases List.mem_cons.mp ha with rfl | ha
    · exact if_pos rfl
    · have hne : key b ≠ key a := fun hkey => h.1 (hkey ▸ List.mem_map_of_mem ha)
      rw [if_neg hne, ih h.2 ha]

/-- Elements that are left out do not matter for other keys. -/
theorem last?_filter {k : κ} {p : α → Bool} (h : ∀ a, key a = k → p a = true) (as : List α) :
    last? key k (as.filter p) = last? key k as := by
  simp only [last?, List.findRev?_eq_find?_reverse, ← List.filter_reverse, List.find?_filter]
  congr 1
  funext a
  by_cases ha : key a = k
  · simp [ha, h a ha]
  · simp [ha]

/-- Where no key is repeated, the first element of a key is also the last. -/
theorem last?_eq_first? (h : (as.map key).Nodup) (k : κ) : last? key k as = first? key k as := by
  induction as with
  | nil => rfl
  | cons a as ih =>
    rw [List.map_cons, List.nodup_cons] at h
    rw [last?_cons, first?_cons, ih h.2]
    split
    · next ha =>
      have hnone : first? key k as = none := first?_eq_none_iff.mpr (ha ▸ h.1)
      rw [hnone, Option.none_or]
    · exact Option.or_none

end TableImport.Keyed
