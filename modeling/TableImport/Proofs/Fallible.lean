import Mathlib.Data.List.Forall2

/-! When computations that can fail give a result. -/
namespace TableImport.Fallible
variable {ε α β : Type} {x : Except ε α}

theorem bind_eq_ok_iff {f : α → Except ε β} {b : β} :
    (x >>= f) = .ok b ↔ ∃ a, x = .ok a ∧ f a = .ok b := by
  cases x with
  | error e => simp [bind, Except.bind]
  | ok a => simp [bind, Except.bind]

theorem andThen_eq_ok_iff {y : Except ε Unit} {b : α} :
    (y >>= fun _ => x) = .ok b ↔ y = .ok () ∧ x = .ok b := by
  cases y with
  | error e => simp [bind, Except.bind]
  | ok u => simp [bind, Except.bind]

theorem map_eq_ok_iff {f : α → β} {b : β} : x.map f = .ok b ↔ ∃ a, x = .ok a ∧ f a = b := by
  cases x with
  | error e => simp [Except.map]
  | ok a => simp [Except.map]

theorem map_eq_error_iff {f : α → β} {e : ε} : x.map f = .error e ↔ x = .error e := by
  cases x with
  | error e' => simp [Except.map]
  | ok a => simp [Except.map]

theorem forM_eq_ok_iff {items : List β} {f : β → Except ε Unit} :
    items.forM f = .ok () ↔ ∀ b ∈ items, f b = .ok () := by
  induction items with
  | nil => simp [pure, Except.pure]
  | cons b items ih =>
    have hstep : (b :: items).forM f = (f b >>= fun _ => items.forM f) := rfl
    rw [hstep, andThen_eq_ok_iff, List.forall_mem_cons, ih]

theorem mapM_eq_ok_iff {f : α → Except ε β} {as : List α} {bs : List β} :
    as.mapM f = .ok bs ↔ List.Forall₂ (fun a b => f a = .ok b) as bs := by
  induction as generalizing bs with
  | nil => simp [pure, Except.pure, eq_comm]
  | cons a as ih =>
    rw [List.mapM_cons, bind_eq_ok_iff, List.forall₂_cons_left_iff]
    simp only [bind_eq_ok_iff, ih, pure, Except.pure, Except.ok.injEq]
    grind

end TableImport.Fallible
