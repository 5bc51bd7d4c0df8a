import TableImport.Expr.Eval
import TableImport.Proofs.Expr.Completeness
import TableImport.Proofs.Fallible

/-! Which expressions have a value: those whose calls are all of functions that take so many
arguments, as in every expression that is parsed. -/
namespace TableImport.Expr

/-- Every call in the expression names a function, in any letter case, that takes its arguments. -/
inductive Callable : Expr → Prop where
  | number (x : Float) : Callable (.number x)
  | var (path : String) : Callable (.var path)
  | negate {e : Expr} (h : Callable e) : Callable (.negate e)
  | binary {op : BinaryOp} {l r : Expr} (hl : Callable l) (hr : Callable r) :
      Callable (.binary op l r)
  | compare {op : CompareOp} {l r : Expr} (hl : Callable l) (hr : Callable r) :
      Callable (.compare op l r)
  | call {name : String} {f : Function} {args : List Expr}
      (hname : Function.lookup? name = some f) (hcount : f.accepts args.length)
      (hargs : ∀ a ∈ args, Callable a) : Callable (.call name args)

variable {scope : Scope}

theorem evalAll_of_forall {es : List Expr} (h : ∀ e ∈ es, ∃ v, eval scope e = .ok v) :
    ∃ vs, evalAll scope es = .ok vs := by
  induction es with
  | nil => exact ⟨[], rfl⟩
  | cons e es ih =>
    rw [List.forall_mem_cons] at h
    obtain ⟨v, hv⟩ := h.1
    obtain ⟨vs, hvs⟩ := ih h.2
    exact ⟨v :: vs, by rw [evalAll, hv, hvs]; rfl⟩

theorem mem_of_evalAll {es : List Expr} {vs : List Value} (h : evalAll scope es = .ok vs) :
    vs.length = es.length ∧ ∀ v, v ∈ vs ↔ ∃ e ∈ es, eval scope e = .ok v := by
  induction es generalizing vs with
  | nil =>
    cases h
    simp
  | cons e es ih =>
    obtain ⟨w, hw, h⟩ := Fallible.bind_eq_ok_iff.mp h
    obtain ⟨ws, hws, h⟩ := Fallible.bind_eq_ok_iff.mp h
    obtain rfl := Except.ok.inj h
    obtain ⟨hlength, hmem⟩ := ih hws
    refine ⟨by rw [List.length_cons, List.length_cons, hlength], ?_⟩
    intro v
    rw [List.mem_cons, hmem, List.exists_mem_cons_iff, hw, Except.ok.injEq, eq_comm]

theorem eval_call {name : String} {f : Function} {args : List Expr} {vs : List Value}
    (hname : Function.lookup? name = some f) (hcount : f.accepts args.length)
    (hvs : evalAll scope args = .ok vs) : eval scope (.call name args) = .ok (invoke f vs) := by
  rw [eval, hname]
  simp only [hcount, if_true, hvs]
  rfl

/-- Whatever values are missing, evaluation comes to an end with a value. -/
theorem Callable.eval {e : Expr} (h : Callable e) (scope : Scope) :
    ∃ v, Expr.eval scope e = .ok v := by
  induction h with
  | number x => exact ⟨_, rfl⟩
  | var path => exact ⟨_, rfl⟩
  | negate _ ih =>
    obtain ⟨v, hv⟩ := ih
    exact ⟨_, by rw [Expr.eval, hv]; rfl⟩
  | binary _ _ ihl ihr | compare _ _ ihl ihr =>
    obtain ⟨a, ha⟩ := ihl
    obtain ⟨b, hb⟩ := ihr
    exact ⟨_, by rw [Expr.eval, ha, hb]; rfl⟩
  | @call name f args hname hcount _ ih =>
    obtain ⟨vs, hvs⟩ := evalAll_of_forall ih
    exact ⟨invoke f vs, eval_call hname hcount hvs⟩

/-- The value of a call comes from as many values as there are arguments, those of its arguments. -/
theorem Callable.exists_invoke {name : String} {f : Function} {args : List Expr}
    (h : Callable (.call name args)) (hname : Function.lookup? name = some f) (scope : Scope) :
    ∃ vs, Expr.eval scope (.call name args) = .ok (invoke f vs) ∧ f.accepts vs.length ∧
      ∀ v, v ∈ vs ↔ ∃ a ∈ args, Expr.eval scope a = .ok v := by
  cases h with
  | call hname' hcount hargs =>
    obtain rfl := Option.some.inj (hname.symm.trans hname')
    obtain ⟨vs, hvs⟩ := evalAll_of_forall fun a ha => (hargs a ha).eval scope
    obtain ⟨hlength, hmem⟩ := mem_of_evalAll hvs
    exact ⟨vs, eval_call hname hcount hvs, hlength ▸ hcount, hmem⟩

mutual

theorem callable_of_eval {e : Expr} {v : Value} (h : eval scope e = .ok v) : Callable e := by
  cases e with
  | number x => exact .number x
  | var path => exact .var path
  | negate e =>
    obtain ⟨a, ha, -⟩ := Fallible.bind_eq_ok_iff.mp h
    exact .negate (callable_of_eval ha)
  | binary op l r =>
    obtain ⟨a, ha, h⟩ := Fallible.bind_eq_ok_iff.mp h
    obtain ⟨b, hb, -⟩ := Fallible.bind_eq_ok_iff.mp h
    exact .binary (callable_of_eval ha) (callable_of_eval hb)
  | compare op l r =>
    obtain ⟨a, ha, h⟩ := Fallible.bind_eq_ok_iff.mp h
    obtain ⟨b, hb, -⟩ := Fallible.bind_eq_ok_iff.mp h
    exact .compare (callable_of_eval ha) (callable_of_eval hb)
  | call name args =>
    rw [eval] at h
    cases hname : Function.lookup? name with
    | none => simp only [hname, reduceCtorEq] at h
    | some f =>
      simp only [hname] at h
      split at h
      · next hcount =>
        obtain ⟨vs, hvs, -⟩ := Fallible.bind_eq_ok_iff.mp h
        exact .call hname hcount (callable_of_evalAll hvs)
      · cases h

theorem callable_of_evalAll {es : List Expr} {vs : List Value} (h : evalAll scope es = .ok vs) :
    ∀ e ∈ es, Callable e := by
  cases es with
  | nil => simp
  | cons e es =>
    obtain ⟨v, hv, h⟩ := Fallible.bind_eq_ok_iff.mp h
    obtain ⟨vs, hvs, -⟩ := Fallible.bind_eq_ok_iff.mp h
    exact List.forall_mem_cons.mpr ⟨callable_of_eval hv, callable_of_evalAll hvs⟩

end

/-- Evaluation fails on bad calls alone, and on them wherever they stand. -/
theorem exists_eval_eq_ok_iff {e : Expr} : (∃ v, eval scope e = .ok v) ↔ Callable e := by
  constructor
  · rintro ⟨v, hv⟩
    exact callable_of_eval hv
  · intro h
    exact h.eval scope

/-- The calls of the grammar are checked calls, under the names of their functions. -/
theorem Derives.callable {c : Category} {ks : List TokenKind} {e : Expr} (h : Derives c ks e) :
    Callable e := by
  induction h with
  | sumAlone _ ih | productAlone _ ih | unaryAlone _ ih | primaryAlone _ ih | group _ ih => exact ih
  | comparison _ _ _ ihl ihr => exact .compare ihl ihr
  | addition _ _ _ ihl ihr | multiplication _ _ _ ihl ihr => exact .binary ihl ihr
  | negation _ ih => exact .negate ih
  | number x => exact .number x
  | identifier path => exact .var path
  | @call name f args hname hcount _ ih =>
    refine .call (lookup?_name f) (by simpa using hcount) ?_
    intro a ha
    obtain ⟨b, hb, rfl⟩ := List.mem_map.mp ha
    exact ih b hb

/-- What is parsed can be evaluated, whatever values are missing. -/
theorem eval_of_parse {text : String} {e : Expr} (h : parse text = .ok e) (scope : Scope) :
    ∃ v, eval scope e = .ok v := by
  obtain ⟨tokens, -, hparse⟩ := Fallible.bind_eq_ok_iff.mp h
  exact (derives_of_parseTokens hparse).callable.eval scope

/-! ### What evaluation depends on -/

mutual

/-- Evaluation sees only the values that the expression names. -/
theorem eval_congr {scope scope' : Scope} {e : Expr} (h : ∀ p ∈ e.paths, scope p = scope' p) :
    eval scope e = eval scope' e := by
  cases e with
  | number x => rfl
  | var path => rw [eval, eval, h path (List.mem_singleton_self path)]
  | negate e =>
    have he : ∀ p ∈ e.paths, scope p = scope' p := h
    rw [eval, eval, eval_congr he]
  | binary op l r | compare op l r =>
    obtain ⟨hl, hr⟩ := List.forall_mem_append.mp h
    rw [eval, eval, eval_congr hl, eval_congr hr]
  | call name args =>
    have hargs : ∀ p ∈ pathsOfAll args, scope p = scope' p := h
    rw [eval, eval, evalAll_congr hargs]

theorem evalAll_congr {scope scope' : Scope} {es : List Expr}
    (h : ∀ p ∈ pathsOfAll es, scope p = scope' p) : evalAll scope es = evalAll scope' es := by
  cases es with
  | nil => rfl
  | cons e es =>
    obtain ⟨he, hes⟩ := List.forall_mem_append.mp h
    rw [evalAll, evalAll, eval_congr he, evalAll_congr hes]

end

end TableImport.Expr
