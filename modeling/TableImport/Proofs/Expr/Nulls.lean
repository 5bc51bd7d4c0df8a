import TableImport.Proofs.Expr.Places

/-! Where null comes from and where it goes to: operands of arithmetic and arguments of strict
functions pass it on, and on a scope without gaps only a division by zero gives it. -/
namespace TableImport

namespace Value

/-- A zero of either sign, or the truth value that counts as 0. -/
def IsZero (v : Value) : Prop := v = .boolean false ∨ ∃ x : Float, v = .number x ∧ x == 0

theorem isZero_iff {v : Value} : v.IsZero ↔ ∃ x, v.number? = some x ∧ x == 0 := by
  have hzero : ((0 : Float) == 0) = true := by decide
  have hone : ((1 : Float) == 0) = false := by decide
  cases v with
  | number x => simp [IsZero, number?]
  | boolean b => cases b <;> simp [IsZero, number?, hzero, hone]
  | null => simp [IsZero, number?]

theorem number?_eq_none_iff {v : Value} : v.number? = none ↔ v = .null := by
  cases v <;> simp [number?]

theorem ofOption_eq_null_iff {x? : Option Float} : ofOption x? = .null ↔ x? = none := by
  cases x? <;> simp [ofOption]

theorem isNull_iff {v : Value} : v.isNull = true ↔ v = .null := by
  cases v <;> simp [isNull]

end Value

namespace Function

/-- All functions let null through but the two that tolerate it. -/
theorem propagatesNull_iff {f : Function} :
    f.propagatesNull = true ↔ f ≠ .if_ ∧ f ≠ .coalesce := by
  cases f <;> simp [propagatesNull]

theorem minArgs_le_of_accepts {f : Function} {count : Nat} (h : f.accepts count = true) :
    f.minArgs ≤ count := by
  rw [accepts, Bool.and_eq_true, decide_eq_true_eq] at h
  exact h.1

variable {args : List Value}

theorem null_mem_of_choose {g : Float → Float → Float} (hlength : 1 ≤ args.length)
    (h : choose g args = .null) : .null ∈ args := by
  unfold choose at h
  split at h
  · next hnone =>
    have hmem := List.getElem_mem hlength
    have hnull := List.filterMap_eq_nil_iff.mp hnone _ hmem
    rwa [Value.number?_eq_none_iff.mp hnull] at hmem
  · cases h

theorem null_mem_of_onNumber {g : Float → Float} (hlength : 1 ≤ args.length)
    (h : onNumber g args = .null) : .null ∈ args := by
  rw [onNumber, Value.ofOption_eq_null_iff, Option.map_eq_none_iff, numberAt?,
    List.getElem?_eq_getElem hlength] at h
  have hmem := List.getElem_mem hlength
  rwa [Value.number?_eq_none_iff.mp h] at hmem

theorem ne_null_of_isAvailable {v : Value} (h : isAvailable v = true) : v ≠ .null := by
  rintro rfl
  cases h

theorem apply_coalesce_ne_null (args : List Value) : coalesce.apply args ≠ .null := by
  rw [apply]
  cases hfind : args.find? isAvailable with
  | none => simp
  | some v => exact ne_null_of_isAvailable (List.find?_some hfind)

/-- No function makes a null of its own. -/
theorem null_mem_of_apply {f : Function} (hcount : f.accepts args.length = true)
    (h : f.apply args = .null) : .null ∈ args := by
  have hlength := minArgs_le_of_accepts hcount
  cases f with
  | min | max => exact null_mem_of_choose hlength h
  | abs | round | floor | ceil | sqrt | pow => exact null_mem_of_onNumber hlength h
  | if_ =>
    rw [apply] at h
    split at h
    · rw [List.getElem?_eq_getElem hlength] at h
      exact h ▸ List.getElem_mem hlength
    · cases hthird : args[2]? with
      | none => simp [hthird] at h
      | some v =>
        rw [hthird] at h
        obtain rfl : v = .null := h
        exact List.mem_of_getElem? hthird
  | coalesce => exact absurd h (apply_coalesce_ne_null args)

end Function

namespace Expr
variable {scope : Scope}

/-! ### One step -/

theorem combine_eq_null_iff {op : BinaryOp} {a b : Value} :
    combine op a b = .null ↔ a = .null ∨ b = .null ∨ op = .div ∧ b.IsZero := by
  rw [← Value.number?_eq_none_iff (v := a), ← Value.number?_eq_none_iff (v := b),
    Value.isZero_iff, combine]
  cases a.number? with
  | none => simp
  | some x =>
    cases b.number? with
    | none => simp
    | some y => cases op <;> simp [BinaryOp.apply]

theorem exists_relate_eq (op : CompareOp) (a b : Value) : ∃ t, relate op a b = .boolean t := by
  unfold relate
  split
  · exact ⟨_, rfl⟩
  · exact ⟨_, rfl⟩

theorem invoke_eq_null {f : Function} {vs : List Value} (hf : f.propagatesNull = true)
    (hnull : .null ∈ vs) : invoke f vs = .null := by
  have hany : vs.any Value.isNull = true := List.any_eq_true.mpr ⟨.null, hnull, rfl⟩
  rw [invoke, hf, hany]
  rfl

theorem null_mem_of_invoke {f : Function} {vs : List Value}
    (hcount : f.accepts vs.length = true) (h : invoke f vs = .null) : .null ∈ vs := by
  unfold invoke at h
  split at h
  · next hnull =>
    obtain ⟨v, hv, hnull⟩ := List.any_eq_true.mp (Bool.and_eq_true_iff.mp hnull).2
    rwa [Value.isNull_iff.mp hnull] at hv
  · exact Function.null_mem_of_apply hcount h

/-! ### Null passed on -/

/-- A part that is reached through operands of negation and arithmetic and through arguments of
functions other than `if` and `coalesce`, and in no other way. -/
inductive StrictPart (part : Expr) : Expr → Prop where
  | whole : StrictPart part part
  | operand {e : Expr} (h : StrictPart part e) : StrictPart part (.negate e)
  | left {op : BinaryOp} {l r : Expr} (h : StrictPart part l) : StrictPart part (.binary op l r)
  | right {op : BinaryOp} {l r : Expr} (h : StrictPart part r) : StrictPart part (.binary op l r)
  | argument {name : String} {f : Function} {args : List Expr} {a : Expr}
      (hname : Function.lookup? name = some f) (hstrict : f ≠ .if_ ∧ f ≠ .coalesce)
      (ha : a ∈ args) (h : StrictPart part a) : StrictPart part (.call name args)

/-- Null comes up from a strict part whatever stands beside the way: other nulls, what is not a
number, infinities, divisions by zero, or comparisons and conditions. -/
theorem eval_null_of_strictPart {part e : Expr} (h : Callable e) (hpart : StrictPart part e)
    (hnull : eval scope part = .ok .null) : eval scope e = .ok .null := by
  induction hpart with
  | whole => exact hnull
  | operand _ ih =>
    cases h with
    | negate h =>
      rw [eval, ih h]
      rfl
  | left _ ih =>
    cases h with
    | binary hl hr =>
      obtain ⟨b, hb⟩ := hr.eval scope
      rw [eval, ih hl, hb]
      exact congrArg Except.ok (combine_eq_null_iff.mpr (.inl rfl))
  | right _ ih =>
    cases h with
    | binary hl hr =>
      obtain ⟨a, ha⟩ := hl.eval scope
      rw [eval, ha, ih hr]
      exact congrArg Except.ok (combine_eq_null_iff.mpr (.inr (.inl rfl)))
  | argument hname hstrict ha _ ih =>
    obtain ⟨vs, heval, -, hmem⟩ := h.exists_invoke hname scope
    have hnull : Value.null ∈ vs := (hmem _).mpr ⟨_, ha, ih (h.child ha)⟩
    rw [heval, invoke_eq_null (Function.propagatesNull_iff.mpr hstrict) hnull]

/-- The expression `max(-fee / 0, if(1 > 2, 1))`, in which the fee is missing. -/
theorem eval_null_of_strictPart_charged :
    let e : Expr := .call "max" [.binary .div (.negate (.var "fee")) (.number 0),
      .call "if" [.compare .greater (.number 1) (.number 2), .number 1]]
    Callable e ∧ StrictPart (.var "fee") e ∧ eval (fun _ => none) (.var "fee") = .ok .null ∧
      eval (fun _ => none) e = .ok .null := by
  intro e
  have hmax : Function.lookup? "max" = some .max := lookup?_name .max
  have hif : Function.lookup? "if" = some .if_ := lookup?_name .if_
  have hcondition : Callable (.call "if" [.compare .greater (.number 1) (.number 2), .number 1]) := by
    refine .call hif rfl ?_
    simpa using And.intro (Callable.compare (.number 1) (.number 2)) (Callable.number 1)
  have hcallable : Callable e := by
    refine .call hmax rfl ?_
    simpa using And.intro (Callable.binary (.negate (.var "fee")) (.number 0)) hcondition
  have hpart : StrictPart (.var "fee") e :=
    .argument hmax (by decide) List.mem_cons_self (.left (.operand .whole))
  have hnull : eval (fun _ => none) (.var "fee") = .ok .null := by rfl
  exact ⟨hcallable, hpart, hnull, eval_null_of_strictPart hcallable hpart hnull⟩

/-! ### Null that arises -/

theorem exists_eval_compare {op : CompareOp} {l r : Expr} (h : Callable (.compare op l r))
    (scope : Scope) : ∃ t, eval scope (.compare op l r) = .ok (.boolean t) := by
  cases h with
  | compare hl hr =>
    obtain ⟨a, ha⟩ := hl.eval scope
    obtain ⟨b, hb⟩ := hr.eval scope
    obtain ⟨t, ht⟩ := exists_relate_eq op a b
    refine ⟨t, ?_⟩
    rw [eval, ha, hb]
    exact congrArg Except.ok ht

theorem exists_eval_coalesce {name : String} {args : List Expr} (h : Callable (.call name args))
    (hname : Function.lookup? name = some .coalesce) (scope : Scope) :
    ∃ v, eval scope (.call name args) = .ok v ∧ v ≠ .null := by
  obtain ⟨vs, heval, -, -⟩ := h.exists_invoke hname scope
  exact ⟨_, heval, Function.apply_coalesce_ne_null vs⟩

/-- The scope has a number for every name of a value in the expression. -/
def Complete (scope : Scope) (e : Expr) : Prop := ∀ p ∈ e.variableNames, (scope p).isSome

theorem Complete.child {c e : Expr} (h : Complete scope e) (hc : c ∈ e.children) :
    Complete scope c := by
  intro p hp
  have hwithin := mem_variableNames_iff.mp hp
  exact h p (mem_variableNames_iff.mpr (hwithin.of_child hc))

/-- The right operand of some division in the expression is a zero. -/
def DividesByZero (scope : Scope) (e : Expr) : Prop :=
  ∃ l r v, Within (.binary .div l r) e ∧ eval scope r = .ok v ∧ v.IsZero

theorem DividesByZero.of_child {c e : Expr} (h : DividesByZero scope c) (hc : c ∈ e.children) :
    DividesByZero scope e := by
  obtain ⟨l, r, v, hwithin, hv⟩ := h
  exact ⟨l, r, v, hwithin.of_child hc, hv⟩

/-- The places where null can come up in one step: a name without a number, a part that is null, or
a division by zero. -/
theorem null_origin {e : Expr} (h : Callable e) (hnull : eval scope e = .ok .null) :
    (∃ path, e = .var path ∧ scope path = none) ∨
      (∃ c ∈ e.children, eval scope c = .ok .null) ∨
      ∃ l r v, e = .binary .div l r ∧ eval scope r = .ok v ∧ v.IsZero := by
  cases h with
  | number x => cases hnull
  | var path => exact .inl ⟨path, rfl, Value.ofOption_eq_null_iff.mp (Except.ok.inj hnull)⟩
  | @negate e _ =>
    obtain ⟨v, hv, hnull⟩ := Fallible.bind_eq_ok_iff.mp hnull
    have hnone := Value.ofOption_eq_null_iff.mp (Except.ok.inj hnull)
    obtain rfl := Value.number?_eq_none_iff.mp (Option.map_eq_none_iff.mp hnone)
    exact .inr (.inl ⟨e, List.mem_singleton_self e, hv⟩)
  | @binary op l r _ _ =>
    obtain ⟨a, ha, hnull⟩ := Fallible.bind_eq_ok_iff.mp hnull
    obtain ⟨b, hb, hnull⟩ := Fallible.bind_eq_ok_iff.mp hnull
    obtain rfl | rfl | ⟨rfl, hzero⟩ := combine_eq_null_iff.mp (Except.ok.inj hnull)
    · exact .inr (.inl ⟨l, List.mem_cons_self, ha⟩)
    · exact .inr (.inl ⟨r, List.mem_cons_of_mem l List.mem_cons_self, hb⟩)
    · exact .inr (.inr ⟨l, r, b, rfl, hb, hzero⟩)
  | compare hl hr =>
    obtain ⟨t, ht⟩ := exists_eval_compare (.compare hl hr) scope
    rw [ht] at hnull
    cases hnull
  | call hname hcount hargs =>
    obtain ⟨vs, heval, hcount, hmem⟩ := (Callable.call hname hcount hargs).exists_invoke hname scope
    rw [heval, Except.ok.injEq] at hnull
    exact .inr (.inl ((hmem _).mp (null_mem_of_invoke hcount hnull)))

/-- Where all names have numbers, null comes from a division by zero. -/
theorem dividesByZero_of_eval {e : Expr} (h : Callable e) (hscope : Complete scope e)
    (hnull : eval scope e = .ok .null) : DividesByZero scope e := by
  induction e using children_induction with
  | h e ih =>
    obtain ⟨path, rfl, hnone⟩ | ⟨c, hc, hnull⟩ | ⟨l, r, v, rfl, hv⟩ := null_origin h hnull
    · have hsome := hscope path (mem_variableNames_iff.mpr (within_self _))
      rw [hnone] at hsome
      cases hsome
    · exact (ih c hc (h.child hc) (hscope.child hc) hnull).of_child hc
    · exact ⟨l, r, v, within_self _, hv⟩

/-- On a scope that has all numbers, null comes from a division whose right operand is a zero or
the truth value that counts as 0. Whatever the scope, comparisons have truth values and `coalesce`
never gives null, wherever they stand in the expression. -/
theorem eval_null_arises {e : Expr} (h : Callable e) (scope : Scope) :
    (Complete scope e → eval scope e = .ok .null → DividesByZero scope e) ∧
      (∀ op l r, Within (.compare op l r) e →
        ∃ t, eval scope (.compare op l r) = .ok (.boolean t)) ∧
      ∀ name args, Within (.call name args) e → Function.lookup? name = some .coalesce →
        ∃ v, eval scope (.call name args) = .ok v ∧ v ≠ .null := by
  refine ⟨dividesByZero_of_eval h, ?_, ?_⟩
  · intro op l r hwithin
    exact exists_eval_compare (h.within hwithin) scope
  · intro name args hwithin hname
    exact exists_eval_coalesce (h.within hwithin) hname scope

/-- The expression `1 / (net - net)` has no value where the net is 2. -/
theorem eval_null_arises_net :
    let e : Expr := .binary .div (.number 1) (.binary .sub (.var "net") (.var "net"))
    Callable e ∧ Complete (fun _ => some 2) e ∧ eval (fun _ => some 2) e = .ok .null ∧
      DividesByZero (fun _ => some 2) e := by
  intro e
  have hcallable : Callable e := .binary (.number 1) (.binary (.var "net") (.var "net"))
  have hcomplete : Complete (fun _ => some 2) e := fun _ _ => rfl
  have hzero : Value.IsZero (.number ((2 : Float) - 2)) := .inr ⟨_, rfl, by decide +kernel⟩
  have hnull : eval (fun _ => some 2) e = .ok .null :=
    congrArg Except.ok (combine_eq_null_iff.mpr (.inr (.inr ⟨rfl, hzero⟩)))
  exact ⟨hcallable, hcomplete, hnull, (eval_null_arises hcallable _).1 hcomplete hnull⟩

/-- The expression `1 / (1 > 2)` is null, though the only right operand of a division in it is no
number but a truth value. -/
theorem eval_null_false_divisor :
    let e : Expr := .binary .div (.number 1) (.compare .greater (.number 1) (.number 2))
    Callable e ∧ Complete (fun _ => none) e ∧ eval (fun _ => none) e = .ok .null ∧
      ¬∃ l r x, Within (.binary .div l r) e ∧ eval (fun _ => none) r = .ok (.number x) ∧ x == 0 := by
  intro e
  have hfalse : eval (fun _ => none) (.compare .greater (.number 1) (.number 2)) =
      .ok (.boolean false) := by
    have hless : CompareOp.holds .greater 1 2 = false := by decide +kernel
    exact congrArg (fun b => Except.ok (Value.boolean b)) hless
  refine ⟨.binary (.number 1) (.compare (.number 1) (.number 2)), ?_, ?_, ?_⟩
  · intro p hp
    simp [e, variableNames, paths] at hp
  · rw [eval, hfalse]
    exact congrArg Except.ok (combine_eq_null_iff.mpr (.inr (.inr ⟨rfl, .inl rfl⟩)))
  · rintro ⟨l, r, x, hwithin, hr, -⟩
    have hnumber : ∀ y, ¬Within (.binary .div l r) (.number y) := by
      intro y h
      rw [within_iff] at h
      simp [children] at h
    obtain heq | ⟨c, hc, hwithin⟩ := within_iff.mp hwithin
    · obtain ⟨-, -, rfl⟩ := Expr.binary.inj heq
      rw [hfalse] at hr
      cases hr
    obtain rfl | rfl : c = .number 1 ∨ c = .compare .greater (.number 1) (.number 2) := by
      simpa [e, children] using hc
    · exact hnumber 1 hwithin
    obtain heq | ⟨c, hc, hwithin⟩ := within_iff.mp hwithin
    · cases heq
    obtain rfl | rfl : c = .number 1 ∨ c = .number 2 := by simpa [children] using hc
    · exact hnumber 1 hwithin
    · exact hnumber 2 hwithin

end Expr
end TableImport
