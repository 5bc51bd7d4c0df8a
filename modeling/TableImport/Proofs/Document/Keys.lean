import Mathlib.Algebra.GroupWithZero.Nat
import Mathlib.Data.List.Forall2
import Mathlib.Data.List.Nodup
import TableImport.Document

/-! The keys of documents: their order, and what is found under them after other keys are set. -/
namespace TableImport

namespace Assoc
variable {α : Type} {m entries : Assoc α} {key : String} {value : α} {p : String × α}

/-- Each key is larger than those before it. -/
def Ordered (m : Assoc α) : Prop := m.Pairwise fun p q => p.1 < q.1

theorem Ordered.nodup (h : Ordered m) : (m.map Prod.fst).Nodup := by
  rw [List.Nodup, List.pairwise_map]
  refine h.imp ?_
  intro p q hlt heq
  rw [heq] at hlt
  exact String.lt_irrefl q.1 hlt

theorem mem_insert (h : p ∈ insert key value m) : p = (key, value) ∨ p ∈ m := by
  induction m with
  | nil => exact .inl (List.mem_singleton.mp h)
  | cons q m ih => grind [insert]

theorem Ordered.insert (h : Ordered m) (key : String) (value : α) :
    Ordered (insert key value m) := by
  induction m with
  | nil => exact List.pairwise_singleton ..
  | cons q m ih =>
    obtain ⟨k, v⟩ := q
    obtain ⟨hk, hm⟩ := List.pairwise_cons.mp h
    unfold Assoc.insert
    by_cases heq : k = key
    · subst heq
      rw [if_pos rfl]
      exact List.pairwise_cons.mpr ⟨hk, hm⟩
    · rw [if_neg heq]
      by_cases hlt : key < k
      · rw [if_pos hlt]
        refine List.pairwise_cons.mpr ⟨?_, h⟩
        intro p hp
        rcases List.mem_cons.mp hp with rfl | hp
        · exact hlt
        · exact String.lt_trans hlt (hk p hp)
      · rw [if_neg hlt]
        refine List.pairwise_cons.mpr ⟨?_, ih hm⟩
        intro p hp
        rcases mem_insert hp with rfl | hp
        · by_contra hge
          exact heq (String.le_antisymm (String.not_lt.mp hlt) (String.not_lt.mp hge))
        · exact hk p hp

theorem get?_eq_none_iff : get? key m = none ↔ key ∉ m.map Prod.fst := by
  induction m with
  | nil => simp
  | cons q m ih => grind [get?]

theorem mem_of_get? (h : get? key m = some value) : (key, value) ∈ m := by
  induction m with
  | nil => cases h
  | cons q m ih => grind [get?]

/-- The entries put over a map are found before those of the map. -/
theorem get?_foldl_insert (h : (entries.map Prod.fst).Nodup) (key : String) (m : Assoc α) :
    get? key (entries.foldl (fun m p => insert p.1 p.2 m) m) =
      (get? key entries).or (get? key m) := by
  induction entries generalizing m with
  | nil => simp
  | cons q entries ih =>
    obtain ⟨k, v⟩ := q
    rw [List.map_cons, List.nodup_cons] at h
    rw [List.foldl_cons, ih h.2]
    by_cases hkey : k = key
    · subst hkey
      rw [get?_eq_none_iff.mpr h.1]
      simp [get?]
    · rw [get?_insert_of_ne (Ne.symm hkey)]
      simp [get?, hkey]

theorem mem_foldl_insert (h : p ∈ entries.foldl (fun m p => insert p.1 p.2 m) m) :
    p ∈ entries ∨ p ∈ m := by
  induction entries generalizing m with
  | nil => exact .inr h
  | cons q entries ih =>
    rcases ih h with hp | hp
    · exact .inl (List.mem_cons_of_mem q hp)
    · rcases mem_insert hp with rfl | hp
      · exact .inl (List.mem_cons_self ..)
      · exact .inr hp

theorem Ordered.foldl_insert (h : Ordered m) (entries : Assoc α) :
    Ordered (entries.foldl (fun m p => Assoc.insert p.1 p.2 m) m) := by
  induction entries generalizing m with
  | nil => exact h
  | cons q entries ih => exact ih (h.insert q.1 q.2)

/-- Where each key is there once, every entry is found under its own. -/
theorem Ordered.get?_of_mem (h : Ordered m) (hp : p ∈ m) : get? p.1 m = some p.2 := by
  induction m with
  | nil => cases hp
  | cons q m ih =>
    obtain ⟨k, v⟩ := q
    obtain ⟨hk, hm⟩ := List.pairwise_cons.mp h
    rcases List.mem_cons.mp hp with rfl | hp
    · simp [get?]
    · have hne : k ≠ p.1 := fun heq => String.lt_irrefl p.1 (heq ▸ hk p hp)
      rw [get?, if_neg hne, ih hm hp]

/-- An insertion adds the weight of the value to the sum, less that of the value it replaces. -/
theorem Ordered.sum_insert (h : Ordered m) (weight : α → Nat) (key : String) (value : α) :
    ((Assoc.insert key value m).map fun p => weight p.2).sum + ((get? key m).map weight).getD 0 =
      (m.map fun p => weight p.2).sum + weight value := by
  induction m with
  | nil => simp [Assoc.insert]
  | cons q m ih =>
    obtain ⟨k, v⟩ := q
    obtain ⟨hk, hm⟩ := List.pairwise_cons.mp h
    unfold Assoc.insert
    by_cases heq : k = key
    · simp only [heq, get?, if_true, List.map_cons, List.sum_cons, Option.map_some,
        Option.getD_some]
      omega
    · by_cases hlt : key < k
      · have hnone : get? key m = none := by
          rw [get?_eq_none_iff]
          intro hmem
          obtain ⟨p, hp, rfl⟩ := List.mem_map.mp hmem
          exact String.lt_irrefl p.1 (String.lt_trans hlt (hk p hp))
        simp only [heq, hlt, hnone, get?, if_true, if_false, List.map_cons, List.sum_cons,
          Option.map_none, Option.getD_none]
        omega
      · have hrest := ih hm
        simp only [heq, hlt, get?, if_false, List.map_cons, List.sum_cons]
        omega

theorem Ordered.setAt {fields : Assoc Json} (h : Ordered fields) (value : Json)
    (path : List String) : Ordered (setAt value path fields) := by
  cases path with
  | nil => exact h
  | cons s path =>
    cases path with
    | nil => exact h.insert s value
    | cons t path => exact h.insert s _

theorem get?_setAt_of_ne {s : String} (h : key ≠ s) (value : Json) (path : List String)
    (fields : Assoc Json) : get? key (setAt value (s :: path) fields) = get? key fields := by
  cases path with
  | nil => exact get?_insert_of_ne h ..
  | cons t path => exact get?_insert_of_ne h ..

/-! ### Maps that differ under one key -/

section
variable {n : Assoc α}

/-- The same keys in the same order with the same values, but for the values under one key. -/
def SameBut (key : String) (m n : Assoc α) : Prop :=
  List.Forall₂ (fun p q => p.1 = q.1 ∧ (p.1 ≠ key → p.2 = q.2)) m n

theorem SameBut.refl (key : String) (m : Assoc α) : SameBut key m m :=
  List.forall₂_same.mpr fun _ _ => ⟨rfl, fun _ => rfl⟩

theorem SameBut.insert (h : SameBut key m n) {k : String} {v w : α} (hvalue : k ≠ key → v = w) :
    SameBut key (insert k v m) (insert k w n) := by
  induction h with
  | nil => exact .cons ⟨rfl, hvalue⟩ .nil
  | @cons p q m n hpq h ih =>
    obtain ⟨k₁, v₁⟩ := p
    obtain ⟨k₂, v₂⟩ := q
    obtain rfl : k₁ = k₂ := hpq.1
    unfold Assoc.insert
    by_cases heq : k₁ = k
    · simp only [if_pos heq]
      exact .cons ⟨rfl, hvalue⟩ h
    · simp only [if_neg heq]
      by_cases hlt : k < k₁
      · simp only [if_pos hlt]
        exact .cons ⟨rfl, hvalue⟩ (.cons hpq h)
      · simp only [if_neg hlt]
        exact .cons hpq ih

end

end Assoc

namespace Document
variable {d : Document} {key : String}

/-- Each key is larger than those before it. -/
def Ordered (d : Document) : Prop := Assoc.Ordered d.fields

theorem ordered_empty : empty.Ordered := List.Pairwise.nil

theorem Ordered.insert (h : d.Ordered) (key : String) (value : Json) :
    (d.insert key value).Ordered :=
  Assoc.Ordered.insert h key value

theorem Ordered.setPath (h : d.Ordered) (path : String) (value : Json) :
    (d.setPath path value).Ordered :=
  Assoc.Ordered.setAt h value (Path.segments path)

theorem Ordered.mergePrices (h : d.Ordered) (incoming : List PriceRecord) :
    (d.mergePrices incoming).Ordered := by
  unfold Document.mergePrices
  split
  · exact h.insert ..
  · exact h.insert ..
  · exact h.insert ..
  · exact h

@[simp] theorem get?_insert_self (d : Document) (key : String) (value : Json) :
    (d.insert key value).get? key = some value :=
  Assoc.get?_insert_self key value d.fields

theorem get?_insert_of_ne {other : String} (h : key ≠ other) (d : Document) (value : Json) :
    (d.insert other value).get? key = d.get? key :=
  Assoc.get?_insert_of_ne h value d.fields

/-- A value stored at a path shows only under the first segment of it. -/
theorem get?_setPath_of_ne {path : String} (h : key ≠ Path.first path) (d : Document)
    (value : Json) : (d.setPath path value).get? key = d.get? key :=
  Assoc.get?_setAt_of_ne h value _ d.fields

end Document
end TableImport
