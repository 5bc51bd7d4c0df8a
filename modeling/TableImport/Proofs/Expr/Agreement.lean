import TableImport.Proofs.Expr.Evaluation
import TableImport.Proofs.Expr.Writing

/-! The value of a text that is written for an expression is the value of the expression. -/
namespace TableImport.Expr

theorem readBackAll?_of_forall {es : List Expr} (h : ∀ e ∈ es, ∃ e', readBack? e = some e') :
    ∃ es', readBackAll? es = some es' ∧ es'.length = es.length := by
  induction es with
  | nil => exact ⟨[], rfl, rfl⟩
  | cons e es ih =>
    rw [List.forall_mem_cons] at h
    obtain ⟨e', he⟩ := h.1
    obtain ⟨es', hes, hlength⟩ := ih h.2
    exact ⟨e' :: es', by rw [readBackAll?, he, hes]; rfl, by simp [hlength]⟩

/-- The parser refuses no call that can be evaluated. -/
theorem Callable.readBack {e : Expr} (h : Callable e) : ∃ e', readBack? e = some e' := by
  induction h with
  | number x => exact ⟨_, rfl⟩
  | var path => exact ⟨_, rfl⟩
  | negate _ ih =>
    obtain ⟨e', he⟩ := ih
    exact ⟨_, by rw [readBack?, he]; rfl⟩
  | binary _ _ ihl ihr | compare _ _ ihl ihr =>
    obtain ⟨l', hl⟩ := ihl
    obtain ⟨r', hr⟩ := ihr
    exact ⟨_, by rw [readBack?, hl, hr]; rfl⟩
  | @call name f args hname hcount _ ih =>
    obtain ⟨args', hargs, hlength⟩ := readBackAll?_of_forall ih
    exact ⟨.call f.name args',
      call?_eq_some_iff.mpr ⟨f, args', hname, hargs, by rwa [hlength], rfl⟩⟩

variable {scope : Scope}

theorem evalAll_readBackAll {es es' : List Expr}
    (h : ∀ e ∈ es, ∀ e', readBack? e = some e' → eval scope e' = eval scope e)
    (hes : readBackAll? es = some es') :
    evalAll scope es' = evalAll scope es ∧ es'.length = es.length := by
  induction es generalizing es' with
  | nil =>
    cases hes
    exact ⟨rfl, rfl⟩
  | cons e es ih =>
    rw [List.forall_mem_cons] at h
    obtain ⟨e₁, he, hes⟩ := Option.bind_eq_some_iff.mp hes
    obtain ⟨es₁, hall, hes⟩ := Option.bind_eq_some_iff.mp hes
    obtain rfl : e₁ :: es₁ = es' := Option.some.inj hes
    obtain ⟨heval, hlength⟩ := ih h.2 hall
    refine ⟨?_, by simp [hlength]⟩
    rw [evalAll, evalAll, h.1 e₁ he, heval]

/-- What is read back is another tree, but it has the same value. -/
theorem eval_readBack {e e' : Expr} (h : Legible e) (hback : readBack? e = some e') :
    eval scope e' = eval scope e := by
  induction h generalizing e' with
  | @number x hfinite =>
    obtain rfl := Option.some.inj hback
    split
    · show Except.ok (Value.number (-(-x))) = .ok (.number x)
      rw [Binary64.neg_neg hfinite]
    · rfl
  | var _ =>
    obtain rfl := Option.some.inj hback
    rfl
  | negate _ ih =>
    obtain ⟨a, ha, rfl⟩ := Option.map_eq_some_iff.mp hback
    rw [eval, eval, ih ha]
  | binary _ _ ihl ihr | compare _ _ ihl ihr =>
    obtain ⟨l', hl, hrest⟩ := Option.bind_eq_some_iff.mp hback
    obtain ⟨r', hr, rfl⟩ := Option.map_eq_some_iff.mp hrest
    rw [eval, eval, ihl hl, ihr hr]
  | @call name args _ _ ih =>
    obtain ⟨f, args', hname, hargs, hcount, rfl⟩ := call?_eq_some_iff.mp hback
    obtain ⟨heval, hlength⟩ := evalAll_readBackAll (fun a ha _ => ih a ha) hargs
    rw [hlength] at hcount
    rw [eval, eval, hname, lookup?_name]
    simp only [hlength, hcount, if_true, heval]

/-- The text of an expression has the value of the expression, and null where it has none,
whatever its calls. -/
theorem evalText_text {e : Expr} (h : Legible e) (scope : Scope) :
    (∀ v, eval scope e = .ok v → evalText scope e.text = v) ∧
      ∀ err, eval scope e = .error err → evalText scope e.text = .null := by
  cases hback : readBack? e with
  | none =>
    obtain ⟨err, hparse⟩ := h.parse_eq_error hback
    have hnull : evalText scope e.text = .null := by rw [evalText, hparse]
    refine ⟨?_, fun _ _ => hnull⟩
    intro v hv
    obtain ⟨e', he⟩ := (callable_of_eval hv).readBack
    rw [hback] at he
    cases he
  | some e' =>
    have hvalue : evalText scope e.text = (eval scope e).toOption.getD .null := by
      rw [evalText, h.parse_eq_ok hback, ← eval_readBack h hback]
    constructor
    · intro v hv
      rw [hvalue, hv]
      rfl
    · intro err herr
      rw [hvalue, herr]
      rfl

/-- The difference `-1.5 - f(-0, net)` for a function of a given name. -/
def discounted (name : String) : Expr :=
  .binary .sub (.number (-1.5)) (.call name [.number (-0.0), .var "net"])

theorem evalText_text_discounted :
    (Legible (discounted "MAX") ∧ ∃ v, eval (fun _ => some 2) (discounted "MAX") = .ok v ∧
      evalText (fun _ => some 2) (discounted "MAX").text = v) ∧
    Legible (discounted "most") ∧ evalText (fun _ => some 2) (discounted "most").text = .null := by
  have hpath : IsPath "net" := ⟨'n', ['e', 't'], rfl, by decide, by simp⟩
  have hargs : ∀ a ∈ [Expr.number (-0.0), .var "net"], Legible a := by
    intro a ha
    rcases List.mem_cons.mp ha with rfl | ha
    · exact .number (by decide)
    · obtain rfl := List.mem_singleton.mp ha
      exact .var hpath
  have h : ∀ {name}, IsPath name → Legible (discounted name) := fun hname =>
    .binary (.number (by decide)) (.call hname hargs)
  have hmax : Legible (discounted "MAX") := h ⟨'M', ['A', 'X'], rfl, by decide, by simp⟩
  have hmost : Legible (discounted "most") := h ⟨'m', ['o', 's', 't'], rfl, by decide, by simp⟩
  have hfound : Function.lookup? "MAX" = some .max := by
    rw [lookup?_eq_some_iff, ← String.toList_inj, String.toList_map]
    decide
  have hmissing : Function.lookup? "most" = none := by
    rw [Option.eq_none_iff_forall_ne_some]
    intro f hf
    have hname := name_of_lookup? hf
    rw [← String.toList_inj, String.toList_map] at hname
    revert hname
    cases f <;> decide
  refine ⟨⟨hmax, ?_⟩, hmost, ?_⟩
  · obtain ⟨v, hv⟩ : ∃ v, eval (fun _ => some 2) (discounted "MAX") = .ok v := by
      simp only [discounted, eval, hfound]
      exact ⟨_, rfl⟩
    exact ⟨v, hv, (evalText_text hmax _).1 v hv⟩
  · refine (evalText_text hmost _).2 (.unknownFunction "most" none) ?_
    simp only [discounted, eval, hmissing]
    rfl

end TableImport.Expr
