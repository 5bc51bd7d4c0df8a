import Mathlib.Data.String.Basic
import TableImport.Proofs.Document.Paths

/-! Values stored at paths of which neither leads to the other: the order does not matter. -/
namespace TableImport

namespace Assoc
variable {α : Type}

theorem insert_comm_of_lt {k l : String} (h : k < l) (v w : α) (m : Assoc α) :
    insert k v (insert l w m) = insert l w (insert k v m) := by
  have hne : k ≠ l := h.ne
  have hnot : ¬l < k := h.asymm
  induction m with
  | nil => simp [insert, h, hne, hne.symm, hnot]
  | cons p m ih =>
    obtain ⟨j, u⟩ := p
    rcases lt_trichotomy j k with hj | rfl | hj
    · have hjl : j < l := hj.trans h
      simp [insert, hj.ne, hj.asymm, hjl.ne, hjl.asymm, ih]
    · simp [insert, hne, hnot]
    · -- The smaller key goes before the entry, wherever the larger one goes.
      by_cases hl : j = l
      · subst hl
        simp [insert, h, hne, hne.symm, hnot]
      · by_cases hlt : l < j
        · simp [insert, hl, hlt, h, hne, hne.symm, hnot, hj, hj.ne']
        · simp [insert, hl, hlt, hne, hnot, hj, hj.ne']

theorem insert_comm {k l : String} (h : k ≠ l) (v w : α) (m : Assoc α) :
    insert k v (insert l w m) = insert l w (insert k v m) := by
  rcases lt_or_gt_of_ne h with hlt | hgt
  · exact insert_comm_of_lt hlt v w m
  · exact (insert_comm_of_lt hgt w v m).symm

theorem insert_insert (k : String) (v w : α) (m : Assoc α) :
    insert k v (insert k w m) = insert k v m := by
  induction m with
  | nil => simp [insert]
  | cons p m ih => grind [insert]

theorem child_insert_self (s : String) (inner m : Assoc Json) :
    child s (insert s (.object inner) m) = inner := by
  unfold child
  rw [get?_insert_self]
  rfl

theorem child_insert_of_ne {s u : String} (h : s ≠ u) (x : Json) (m : Assoc Json) :
    child s (insert u x m) = child s m := by
  unfold child
  rw [get?_insert_of_ne h]

/-- What is stored under the first segment depends on what is there, and on nothing else. -/
theorem exists_setAt_cons (value : Json) (s : String) (path : List String) :
    ∃ f : Assoc Json → Json, ∀ m, setAt value (s :: path) m = insert s (f (child s m)) m := by
  cases path with
  | nil => exact ⟨fun _ => value, fun _ => rfl⟩
  | cons t path => exact ⟨fun inner => .object (setAt value (t :: path) inner), fun _ => rfl⟩

theorem setAt_comm {p q : List String} (hpq : ¬p <+: q) (hqp : ¬q <+: p) (v w : Json)
    (m : Assoc Json) : setAt v p (setAt w q m) = setAt w q (setAt v p m) := by
  induction p generalizing q m with
  | nil => exact absurd List.nil_prefix hpq
  | cons s p ih =>
    cases q with
    | nil => exact absurd List.nil_prefix hqp
    | cons u q =>
      by_cases hu : s = u
      · subst hu
        rw [List.cons_prefix_cons, not_and] at hpq hqp
        obtain ⟨t, p, rfl⟩ : ∃ t rest, p = t :: rest := by
          apply List.exists_cons_of_ne_nil
          rintro rfl
          exact hpq rfl List.nil_prefix
        obtain ⟨t', q, rfl⟩ : ∃ t rest, q = t :: rest := by
          apply List.exists_cons_of_ne_nil
          rintro rfl
          exact hqp rfl List.nil_prefix
        simp only [setAt, child_insert_self, insert_insert]
        rw [ih (hpq rfl) (hqp rfl)]
      · obtain ⟨f, hf⟩ := exists_setAt_cons v s p
        obtain ⟨g, hg⟩ := exists_setAt_cons w u q
        rw [hf, hg, hf, hg, child_insert_of_ne hu, child_insert_of_ne (Ne.symm hu), insert_comm hu]

end Assoc

theorem Document.insert_insert (d : Document) (key : String) (v w : Json) :
    (d.insert key w).insert key v = d.insert key v :=
  congrArg mk (Assoc.insert_insert key v w d.fields)

theorem Document.insert_comm {key other : String} (h : key ≠ other) (d : Document) (v w : Json) :
    (d.insert other w).insert key v = (d.insert key v).insert other w :=
  congrArg mk (Assoc.insert_comm h v w d.fields)

theorem Document.setPath_comm {p q : String} (h : ¬Path.Overlaps p q) (d : Document) (v w : Json) :
    (d.setPath p v).setPath q w = (d.setPath q w).setPath p v := by
  obtain ⟨hpq, hqp⟩ := not_or.mp h
  exact congrArg Document.mk (Assoc.setAt_comm hqp hpq w v d.fields)

end TableImport
