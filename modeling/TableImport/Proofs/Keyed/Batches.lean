import Mathlib.Data.List.Induction
import TableImport.Proofs.Keyed

/-! Stores into which elements are put one after another: when elements may be combined before they
are put, and when putting them again changes nothing. -/
namespace TableImport.Keyed
variable {α β κ σ : Type}

/-- An element takes the place of what the store has under its key, and other keys are not
concerned. The order of two elements matters only where both of their keys are new. -/
structure PutLaws (key : α → κ) (has : κ → σ → Prop) (put : α → σ → σ) : Prop where
  has_self : ∀ a s, has (key a) (put a s)
  has_put : ∀ {k : κ} {s : σ}, has k s → ∀ a, has k (put a s)
  put_put : ∀ {a b : α}, key a = key b → ∀ s, put a (put b s) = put a s
  put_comm : ∀ {a b : α} {s : σ}, key a ≠ key b → has (key a) s → put a (put b s) = put b (put a s)

namespace PutLaws
variable {key : α → κ} {has : κ → σ → Prop} {put : α → σ → σ} {a : α} {as bs : List α} {s : σ}

theorem has_foldl (laws : PutLaws key has put) {k : κ} (h : has k s) (bs : List α) :
    has k (bs.foldl (fun s b => put b s) s) := by
  induction bs generalizing s with
  | nil => exact h
  | cons b bs ih => exact ih (laws.has_put h b)

theorem has_foldl_of_mem (laws : PutLaws key has put) {k : κ} (h : k ∈ bs.map key) (s : σ) :
    has k (bs.foldl (fun s b => put b s) s) := by
  induction bs generalizing s with
  | nil => cases h
  | cons b bs ih =>
    rw [List.map_cons, List.mem_cons] at h
    rcases h with rfl | h
    · exact laws.has_foldl (laws.has_self b s) bs
    · exact ih h (put b s)

/-- An element whose key is there already can be put before others of different keys. -/
theorem foldl_put_comm (laws : PutLaws key has put) (hs : has (key a) s) (h : key a ∉ bs.map key) :
    bs.foldl (fun s b => put b s) (put a s) = put a (bs.foldl (fun s b => put b s) s) := by
  induction bs generalizing s with
  | nil => rfl
  | cons b bs ih =>
    rw [List.map_cons, List.mem_cons, not_or] at h
    rw [List.foldl_cons, List.foldl_cons, ← laws.put_comm h.1 hs, ih (laws.has_put hs b) h.2]

/-- Where all the keys are there, an element that is put last need not be put first. -/
theorem put_foldl_put (laws : PutLaws key has put) (h : ∀ k ∈ bs.map key, has k s) :
    put a (bs.foldl (fun s b => put b s) (put a s)) = put a (bs.foldl (fun s b => put b s) s) := by
  induction bs generalizing s with
  | nil => exact laws.put_put rfl s
  | cons b bs ih =>
    rw [List.map_cons, List.forall_mem_cons] at h
    rw [List.foldl_cons, List.foldl_cons]
    by_cases hkey : key b = key a
    · rw [laws.put_put hkey]
    · rw [laws.put_comm hkey h.1, ih fun k hk => laws.has_put (h.2 k hk) b]

/-- Putting the same elements again changes nothing. -/
theorem foldl_foldl_self (laws : PutLaws key has put) (bs : List α) (s : σ) :
    bs.foldl (fun s b => put b s) (bs.foldl (fun s b => put b s) s) =
      bs.foldl (fun s b => put b s) s := by
  induction bs using List.reverseRecOn generalizing s with
  | nil => rfl
  | append_singleton bs b ih =>
    rw [List.foldl_concat, List.foldl_concat, laws.put_foldl_put fun k hk =>
      laws.has_foldl_of_mem hk s, ih]

variable [DecidableEq κ]

/-- An element put into a batch is put into the store after the others of the batch. -/
theorem foldl_put (laws : PutLaws key has put) (h : (as.map key).Nodup) (a : α) (s : σ) :
    (Keyed.put key a as).foldl (fun s b => put b s) s =
      put a (as.foldl (fun s b => put b s) s) := by
  induction as generalizing s with
  | nil => rfl
  | cons b as ih =>
    rw [List.map_cons, List.nodup_cons] at h
    by_cases hkey : key b = key a
    · have hput : put a s = put a (put b s) := (laws.put_put hkey.symm s).symm
      rw [put_cons_of_eq hkey, List.foldl_cons, List.foldl_cons, hput]
      exact laws.foldl_put_comm (hkey ▸ laws.has_self b s) (hkey ▸ h.1)
    · rw [put_cons_of_ne hkey, List.foldl_cons, List.foldl_cons, ih h.2]

/-- A batch without repeated keys can take another one before both are put. -/
theorem foldl_putAll (laws : PutLaws key has put) (h : (as.map key).Nodup) (bs : List α) (s : σ) :
    (putAll key as bs).foldl (fun s b => put b s) s =
      bs.foldl (fun s b => put b s) (as.foldl (fun s b => put b s) s) := by
  induction bs generalizing as with
  | nil => rfl
  | cons b bs ih =>
    rw [putAll_cons, ih (nodup_put_iff.mpr h), laws.foldl_put h, List.foldl_cons]

end PutLaws

/-! ### Lists -/

/-- Values in a list, each of which is found for one key and taken over by elements of that key. -/
structure Entries (α β κ : Type) where
  key : α → κ
  found : κ → β → Bool
  new : α → β
  write : α → β → β
  found_new : ∀ {a k}, found k (new a) = true ↔ key a = k
  found_write : ∀ {a b}, found (key a) b = true → ∀ k, found k (write a b) = found k b
  eq_of_found : ∀ {b k l}, found k b = true → found l b = true → k = l
  write_new : ∀ {a a'}, key a = key a' → write a (new a') = new a
  write_write : ∀ {a a'}, key a = key a' → ∀ b, write a (write a' b) = write a b

namespace Entries
variable {E : Entries α β κ} {a : α} {b : β} {bs : List β}

/-- An element is written over the first value that is found for its key, or comes last. -/
def put (E : Entries α β κ) (a : α) : List β → List β
  | [] => [E.new a]
  | b :: bs => if E.found (E.key a) b then E.write a b :: bs else b :: E.put a bs

theorem put_cons_of_found (h : E.found (E.key a) b = true) (bs : List β) :
    E.put a (b :: bs) = E.write a b :: bs :=
  if_pos h

theorem put_cons_of_not (h : E.found (E.key a) b = false) (bs : List β) :
    E.put a (b :: bs) = b :: E.put a bs :=
  if_neg (Bool.eq_false_iff.mp h)

theorem any_found_put {k : κ} :
    (E.put a bs).any (E.found k) = true ↔ bs.any (E.found k) = true ∨ E.key a = k := by
  induction bs with
  | nil => simp [put, E.found_new]
  | cons b bs ih =>
    cases h : E.found (E.key a) b with
    | true =>
      rw [put_cons_of_found h, List.any_cons, List.any_cons, E.found_write h]
      refine (or_iff_left_of_imp ?_).symm
      rintro rfl
      rw [h, Bool.true_or]
    | false =>
      rw [put_cons_of_not h, List.any_cons, List.any_cons, Bool.or_eq_true, Bool.or_eq_true, ih,
        or_assoc]

theorem put_put {a' : α} (hkey : E.key a = E.key a') (bs : List β) :
    E.put a (E.put a' bs) = E.put a bs := by
  induction bs with
  | nil =>
    have hfound : E.found (E.key a) (E.new a') = true := E.found_new.mpr hkey.symm
    rw [put, put_cons_of_found hfound, E.write_new hkey, put]
  | cons b bs ih =>
    cases h : E.found (E.key a') b with
    | true =>
      have hb : E.found (E.key a) b = true := hkey ▸ h
      have hfound : E.found (E.key a) (E.write a' b) = true := (E.found_write h _).trans hb
      rw [put_cons_of_found h, put_cons_of_found hfound, E.write_write hkey, put_cons_of_found hb]
    | false =>
      have hb : E.found (E.key a) b = false := hkey ▸ h
      rw [put_cons_of_not h, put_cons_of_not hb, put_cons_of_not hb, ih]

/-- The order of two elements matters only where neither of their keys has a value. -/
theorem put_comm {a' : α} (hne : E.key a ≠ E.key a') (h : bs.any (E.found (E.key a)) = true) :
    E.put a (E.put a' bs) = E.put a' (E.put a bs) := by
  induction bs with
  | nil => cases h
  | cons b bs ih =>
    cases ha : E.found (E.key a) b with
    | true =>
      have ha' : E.found (E.key a') b = false := by
        rw [Bool.eq_false_iff]
        exact fun hb => hne (E.eq_of_found ha hb)
      have hwritten : E.found (E.key a') (E.write a b) = false := (E.found_write ha _).trans ha'
      rw [put_cons_of_not ha', put_cons_of_found ha, put_cons_of_found ha,
        put_cons_of_not hwritten]
    | false =>
      cases ha' : E.found (E.key a') b with
      | true =>
        have hwritten : E.found (E.key a) (E.write a' b) = false := (E.found_write ha' _).trans ha
        rw [put_cons_of_found ha', put_cons_of_not hwritten, put_cons_of_not ha,
          put_cons_of_found ha']
      | false =>
        rw [List.any_cons, ha, Bool.false_or] at h
        rw [put_cons_of_not ha', put_cons_of_not ha, put_cons_of_not ha, put_cons_of_not ha', ih h]

theorem putLaws (E : Entries α β κ) :
    PutLaws E.key (fun k bs => bs.any (E.found k) = true) E.put where
  has_self _ _ := any_found_put.mpr (.inr rfl)
  has_put h _ := any_found_put.mpr (.inl h)
  put_put := put_put
  put_comm := put_comm

end Entries

variable [DecidableEq κ]

/-- The elements of a list, each found for its own key. -/
def elements (key : α → κ) : Entries α α κ where
  key := key
  found k a := key a = k
  new a := a
  write a _ := a
  found_new := decide_eq_true_iff
  found_write h k := by rw [of_decide_eq_true h]
  eq_of_found hk hl := (of_decide_eq_true hk).symm.trans (of_decide_eq_true hl)
  write_new _ := rfl
  write_write _ _ := rfl

theorem put_elements (key : α → κ) : (elements key).put = put key := by
  funext a as
  induction as with
  | nil => rfl
  | cons b as ih =>
    rw [Entries.put, ih, put]
    simp only [elements, decide_eq_true_eq]

/-- The laws hold of lists, which have the keys of their elements. -/
theorem putLaws (key : α → κ) :
    PutLaws key (fun k as => as.any (fun a => key a = k) = true) (put key) :=
  put_elements key ▸ (elements key).putLaws

section
variable {key : α → κ} {a : α} {as bs : List α}

/-- What is put concerns the elements of its own key only. -/
theorem filter_put (k : κ) (a : α) (as : List α) :
    (put key a as).filter (fun b => key b = k) =
      if key a = k then put key a (as.filter fun b => key b = k)
      else as.filter fun b => key b = k := by
  induction as with
  | nil => by_cases h : key a = k <;> simp [put, h]
  | cons b as ih =>
    by_cases hkey : key b = key a
    · rw [put_cons_of_eq hkey]
      by_cases h : key a = k
      · have hb : key b = k := hkey.trans h
        simp [h, hb, put_cons_of_eq hkey]
      · have hb : key b ≠ k := fun hb => h (hkey.symm.trans hb)
        simp [h, hb]
    · rw [put_cons_of_ne hkey, List.filter_cons, ih, List.filter_cons]
      by_cases hb : key b = k
      · have h : key a ≠ k := fun h => hkey (hb.trans h.symm)
        simp [h, hb]
      · simp [hb]

/-- The elements of one key are those that are put for it over those that were there. -/
theorem filter_putAll (k : κ) (as bs : List α) :
    (putAll key as bs).filter (fun b => key b = k) =
      putAll key (as.filter fun b => key b = k) (bs.filter fun b => key b = k) := by
  induction bs generalizing as with
  | nil => rfl
  | cons b bs ih =>
    rw [putAll_cons, ih, filter_put, List.filter_cons]
    by_cases h : key b = k
    · simp [h]
    · simp [h]

/-- An element of a new key comes last. -/
theorem put_of_not_mem (h : key a ∉ as.map key) : put key a as = as ++ [a] := by
  induction as with
  | nil => rfl
  | cons b as ih =>
    rw [List.map_cons, List.mem_cons, not_or] at h
    rw [put_cons_of_ne (Ne.symm h.1), ih h.2, List.cons_append]

/-- Elements of different keys stand in an empty list as they come. -/
theorem putAll_nil_left (h : (as.map key).Nodup) : putAll key [] as = as := by
  induction as using List.reverseRecOn with
  | nil => rfl
  | append_singleton as a ih =>
    rw [List.map_append, List.map_singleton, ← List.concat_eq_append, List.nodup_concat] at h
    have hconcat : putAll key [] (as ++ [a]) = put key a (putAll key [] as) := List.foldl_concat ..
    rw [hconcat, ih h.2, put_of_not_mem h.1]

end

end TableImport.Keyed
