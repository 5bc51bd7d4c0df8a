import TableImport.Assoc
import TableImport.Proofs.Expr.Evaluation

/-! The places of an expression, from left to right, and the names of values that stand at them:
evaluation depends on these names alone. -/
namespace TableImport

/-- The scope of a map whose entries may be marked as missing, which is the same as no entry. -/
def Scope.ofEntries (entries : Assoc (Option Float)) : Scope :=
  fun path => (Assoc.get? path entries).join

namespace Expr

def children : Expr → List Expr
  | number _ | var _ => []
  | negate e => [e]
  | binary _ l r | compare _ l r => [l, r]
  | call _ args => args

/-- The part at a place, which is given by the numbers of the children on the way down to it. -/
def part? : List Nat → Expr → Option Expr
  | [], e => some e
  | i :: place, e => e.children[i]?.bind (part? place)

/-- The way to one place turns off to the left of the way to the other, or ends on it. -/
def Before : List Nat → List Nat → Prop := List.Lex (· < ·)

theorem children_induction {P : Expr → Prop} (h : ∀ e : Expr, (∀ c ∈ e.children, P c) → P e)
    (e : Expr) : P e := by
  apply h
  intro c hc
  have : sizeOf c < sizeOf e := by
    cases e with
    | number x | var p => simp [children] at hc
    | negate e =>
      obtain rfl := List.mem_singleton.mp hc
      rw [negate.sizeOf_spec]
      omega
    | binary op l r | compare op l r =>
      obtain rfl | rfl : c = l ∨ c = r := by simpa [children] using hc
      all_goals
        simp only [binary.sizeOf_spec, compare.sizeOf_spec]
        omega
    | call name args =>
      have hargs : sizeOf c < sizeOf args := List.sizeOf_lt_of_mem hc
      rw [call.sizeOf_spec]
      omega
  exact children_induction h c
termination_by sizeOf e

/-! ### Parts -/

/-- One expression stands at some place of another. -/
def Within (part e : Expr) : Prop := ∃ place, part? place e = some part

theorem within_self (e : Expr) : Within e e := ⟨[], rfl⟩

theorem within_iff {part e : Expr} : Within part e ↔ part = e ∨ ∃ c ∈ e.children, Within part c := by
  constructor
  · rintro ⟨_ | ⟨i, place⟩, hplace⟩
    · exact .inl (Option.some.inj hplace).symm
    · obtain ⟨c, hc, hplace⟩ := Option.bind_eq_some_iff.mp hplace
      exact .inr ⟨c, List.mem_of_getElem? hc, place, hplace⟩
  · rintro (rfl | ⟨c, hc, place, hplace⟩)
    · exact within_self _
    · obtain ⟨i, hi⟩ := List.mem_iff_getElem?.mp hc
      exact ⟨i :: place, Option.bind_eq_some_iff.mpr ⟨c, hi, hplace⟩⟩

theorem Within.of_child {part c e : Expr} (hc : c ∈ e.children) (h : Within part c) :
    Within part e :=
  within_iff.mpr (.inr ⟨c, hc, h⟩)

theorem Callable.child {c e : Expr} (h : Callable e) (hc : c ∈ e.children) : Callable c := by
  cases h with
  | number x | var p => simp [children] at hc
  | negate h =>
    obtain rfl := List.mem_singleton.mp hc
    exact h
  | @binary op l r hl hr | @compare op l r hl hr =>
    obtain rfl | rfl : c = l ∨ c = r := by simpa [children] using hc
    · exact hl
    · exact hr
  | call _ _ hargs => exact hargs c hc

theorem Callable.within {part e : Expr} (h : Callable e) (hpart : Within part e) :
    Callable part := by
  induction e using children_induction with
  | h e ih =>
    obtain rfl | ⟨c, hc, hpart⟩ := within_iff.mp hpart
    · exact h
    · exact ih c hc (h.child hc) hpart

/-! ### Names of values at their places -/

mutual

/-- The names of values from left to right, each with its place. -/
def occurrences : Expr → List (List Nat × String)
  | number _ => []
  | var path => [([], path)]
  | negate e => (occurrences e).map (Prod.map (0 :: ·) id)
  | binary _ l r | compare _ l r =>
    (occurrences l).map (Prod.map (0 :: ·) id) ++ (occurrences r).map (Prod.map (1 :: ·) id)
  | call _ args => occurrencesFrom 0 args

/-- The names in some children of an expression, the first of which has the given number. -/
def occurrencesFrom (i : Nat) : List Expr → List (List Nat × String)
  | [] => []
  | e :: es => (occurrences e).map (Prod.map (i :: ·) id) ++ occurrencesFrom (i + 1) es

end

/-- A name of a value or the names of the children. -/
theorem occurrences_cases (e : Expr) :
    (∃ path, e = .var path) ∨
      (∀ path, e ≠ .var path) ∧ e.occurrences = occurrencesFrom 0 e.children ∧
        e.paths = pathsOfAll e.children := by
  cases e <;> simp [occurrences, occurrencesFrom, children, paths, pathsOfAll]

theorem map_snd_occurrencesFrom {es : List Expr}
    (h : ∀ e ∈ es, e.occurrences.map Prod.snd = e.paths) (i : Nat) :
    (occurrencesFrom i es).map Prod.snd = pathsOfAll es := by
  induction es generalizing i with
  | nil => rfl
  | cons e es ih =>
    rw [List.forall_mem_cons] at h
    rw [occurrencesFrom, pathsOfAll, List.map_append, ih h.2, ← h.1, List.map_map]
    rfl

theorem map_snd_occurrences (e : Expr) : e.occurrences.map Prod.snd = e.paths := by
  induction e using children_induction with
  | h e ih =>
    obtain ⟨path, rfl⟩ | ⟨-, hoccurrences, hpaths⟩ := occurrences_cases e
    · rfl
    · rw [hoccurrences, hpaths, map_snd_occurrencesFrom ih]

theorem mem_occurrencesFrom_iff {es : List Expr}
    (h : ∀ e ∈ es, ∀ place p, (place, p) ∈ e.occurrences ↔ part? place e = some (.var p))
    {i : Nat} {place : List Nat} {p : String} :
    (place, p) ∈ occurrencesFrom i es ↔
      ∃ k rest, place = (i + k) :: rest ∧ es[k]?.bind (part? rest) = some (.var p) := by
  induction es generalizing i with
  | nil => simp [occurrencesFrom]
  | cons e es ih =>
    rw [List.forall_mem_cons] at h
    have hhead : (place, p) ∈ e.occurrences.map (Prod.map (i :: ·) id) ↔
        ∃ rest, place = i :: rest ∧ part? rest e = some (.var p) := by
      simp [← h.1, eq_comm, and_comm]
    rw [occurrencesFrom, List.mem_append, hhead, ih h.2]
    constructor
    · rintro (⟨rest, rfl, hrest⟩ | ⟨k, rest, rfl, hrest⟩)
      · exact ⟨0, rest, rfl, hrest⟩
      · exact ⟨k + 1, rest, by rw [Nat.add_right_comm, Nat.add_assoc], hrest⟩
    · rintro ⟨_ | k, rest, rfl, hrest⟩
      · exact .inl ⟨rest, rfl, hrest⟩
      · exact .inr ⟨k, rest, by rw [Nat.add_right_comm, Nat.add_assoc], hrest⟩

theorem mem_occurrences_iff {e : Expr} {place : List Nat} {p : String} :
    (place, p) ∈ e.occurrences ↔ part? place e = some (.var p) := by
  induction e using children_induction generalizing place p with
  | h e ih =>
    obtain ⟨path, rfl⟩ | ⟨hvar, hoccurrences, -⟩ := occurrences_cases e
    · cases place <;> simp [occurrences, part?, children, eq_comm]
    rw [hoccurrences, mem_occurrencesFrom_iff fun c hc _ _ => ih c hc]
    cases place with
    | nil => simp [part?, hvar p]
    | cons i rest => simp [part?]

theorem ordered_occurrencesFrom {es : List Expr}
    (h : ∀ e ∈ es, e.occurrences.Pairwise fun a b => Before a.1 b.1) (i : Nat) :
    (occurrencesFrom i es).Pairwise fun a b => Before a.1 b.1 := by
  induction es generalizing i with
  | nil => exact .nil
  | cons e es ih =>
    rw [List.forall_mem_cons] at h
    refine List.pairwise_append.mpr ⟨?_, ih h.2 (i + 1), ?_⟩
    · exact List.pairwise_map.mpr (h.1.imp .cons)
    · intro a ha b hb
      obtain ⟨a, -, rfl⟩ := List.mem_map.mp ha
      obtain ⟨k, rest, hplace, -⟩ :=
        (mem_occurrencesFrom_iff fun _ _ _ _ => mem_occurrences_iff).mp hb
      show Before (i :: a.1) b.1
      rw [hplace]
      exact .rel (by omega)

/-- The places of the names are in order. -/
theorem ordered_occurrences (e : Expr) : e.occurrences.Pairwise fun a b => Before a.1 b.1 := by
  induction e using children_induction with
  | h e ih =>
    obtain ⟨path, rfl⟩ | ⟨-, hoccurrences, -⟩ := occurrences_cases e
    · exact List.pairwise_singleton _ _
    · rw [hoccurrences]
      exact ordered_occurrencesFrom ih 0

/-! ### First occurrences -/

/-- Where the elements of a list are marked in ascending order and repetitions are removed, an
earlier element has a mark below all marks of a later one. -/
theorem pairwise_eraseDups {α β : Type} [BEq β] [LawfulBEq β] {r : α → α → Prop}
    {marked : List (α × β)} (h : marked.Pairwise fun a b => r a.1 b.1) :
    (marked.map Prod.snd).eraseDups.Pairwise fun p q =>
      ∃ m, (m, p) ∈ marked ∧ ∀ n, (n, q) ∈ marked → r m n := by
  induction hlength : marked.length using Nat.strongRecOn generalizing marked with
  | ind n ih =>
    subst hlength
    cases marked with
    | nil => simp
    | cons head rest =>
      obtain ⟨m, a⟩ := head
      obtain ⟨hfirst, hrest⟩ := List.pairwise_cons.mp h
      -- What is left after the first element is the list of the other elements, with their marks.
      have hothers : ∀ {p}, p ≠ a → ∀ n,
          (n, p) ∈ (m, a) :: rest ↔ (n, p) ∈ rest.filter fun b => !b.2 == a := by
        intro p hp n
        simp [hp]
      have hne : ∀ q ∈ ((rest.filter fun b => !b.2 == a).map Prod.snd).eraseDups, q ≠ a := by
        intro q hq
        obtain ⟨b, hb, rfl⟩ := List.mem_map.mp (List.mem_eraseDups.mp hq)
        simpa using (List.mem_filter.mp hb).2
      have hshorter : (rest.filter fun b => !b.2 == a).length < ((m, a) :: rest).length :=
        Nat.lt_succ_of_le (List.length_filter_le _ rest)
      have htail := ih _ hshorter (hrest.filter _) rfl
      rw [List.map_cons, List.eraseDups_cons, List.filter_map]
      refine List.pairwise_cons.mpr ⟨?_, ?_⟩
      · intro q hq
        refine ⟨m, List.mem_cons_self, ?_⟩
        intro n hn
        have hmem := (hothers (hne q hq) n).mp hn
        exact hfirst _ (List.mem_filter.mp hmem).1
      · refine htail.imp_of_mem ?_
        rintro p q hp hq ⟨k, hk, hall⟩
        refine ⟨k, (hothers (hne p hp) k).mpr hk, ?_⟩
        intro n hn
        exact hall n ((hothers (hne q hq) n).mp hn)

theorem mem_variableNames_iff {e : Expr} {p : String} :
    p ∈ e.variableNames ↔ Within (.var p) e := by
  rw [variableNames, List.mem_eraseDups, ← map_snd_occurrences, List.mem_map]
  constructor
  · rintro ⟨⟨place, _⟩, hmem, rfl⟩
    exact ⟨place, mem_occurrences_iff.mp hmem⟩
  · rintro ⟨place, hplace⟩
    exact ⟨(place, p), mem_occurrences_iff.mpr hplace, rfl⟩

theorem ordered_variableNames (e : Expr) : e.variableNames.Pairwise fun p q =>
    ∃ place, part? place e = some (.var p) ∧
      ∀ other, part? other e = some (.var q) → Before place other := by
  have h := pairwise_eraseDups e.ordered_occurrences
  simpa only [variableNames, mem_occurrences_iff, map_snd_occurrences] using h

/-- The names that an expression reports are those of the values in it, each once and in the order
of their first places, and two maps that agree on these names give the same result or the same
error. Whether a value is marked as missing or has no entry makes no difference. -/
theorem variableNames_determine_eval (e : Expr) :
    e.variableNames.Nodup ∧
      (∀ p, p ∈ e.variableNames ↔ Within (.var p) e) ∧
      (e.variableNames.Pairwise fun p q => ∃ place, part? place e = some (.var p) ∧
        ∀ other, part? other e = some (.var q) → Before place other) ∧
      ∀ entries entries' : Assoc (Option Float),
        (∀ p ∈ e.variableNames,
          (Assoc.get? p entries).join = (Assoc.get? p entries').join) →
        eval (Scope.ofEntries entries) e = eval (Scope.ofEntries entries') e := by
  refine ⟨?_, fun p => mem_variableNames_iff, e.ordered_variableNames, ?_⟩
  · refine e.ordered_variableNames.imp ?_
    rintro p q ⟨place, hplace, hbefore⟩ rfl
    exact List.lex_irrefl Nat.lt_irrefl place (hbefore place hplace)
  · intro entries entries' hagree
    exact eval_congr fun p hp => hagree p (List.mem_eraseDups.mpr hp)

/-- The expression `if(net > 0, tax, -net)` does not tell a tax that is marked as missing from one
without an entry. -/
theorem variableNames_determine_eval_taxed :
    let e : Expr := .call "if"
      [.compare .greater (.var "net") (.number 0), .var "tax", .negate (.var "net")]
    e.variableNames = ["net", "tax"] ∧
      eval (Scope.ofEntries [("net", some 2), ("rate", some 1), ("tax", none)]) e =
        eval (Scope.ofEntries [("net", some 2)]) e := by
  intro e
  have hnames : e.variableNames = ["net", "tax"] := by rfl
  refine ⟨hnames, e.variableNames_determine_eval.2.2.2 _ _ ?_⟩
  rw [hnames]
  intro p hp
  obtain rfl | rfl : p = "net" ∨ p = "tax" := by simpa using hp
  · rfl
  · rfl

end Expr
end TableImport
