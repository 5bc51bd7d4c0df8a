import TableImport.Proofs.Expr.Agreement
import TableImport.Proofs.Expr.Nulls
import TableImport.Proofs.Number.WholeText
import TableImport.Proofs.Row.Mentions

/-! Computed fields with two operands and a factor, against the expressions that say the same. -/
namespace TableImport

namespace Expr

theorem chars_number {x : Float} (hfinite : x.isFinite = true) :
    (Expr.number x).chars = Layout.plain.chars x := by
  rw [chars]
  split
  · next hsign => exact (Layout.plain_chars_of_negative hfinite hsign).symm
  · rfl

theorem Shows.number {x : Float} (hfinite : x.isFinite = true) :
    Shows .unary (Layout.plain.chars x) (readBack? (.number x)) := by
  obtain ⟨d, hd, hshows⟩ := (Legible.number hfinite).shows
  rw [chars_number hfinite] at hshows
  apply hshows.loosen
  rw [hd, precedence]
  split <;> decide

/-- Two names with an operator between them, then a factor. -/
def scaled (op : BinaryOp) (left right : String) (factor : Float) : Expr :=
  .binary .mul (.binary op (.var left) (.var right)) (.number factor)

/-- The text `(left op right) * factor`, whatever the operator is. -/
def scaledText (op : BinaryOp) (left right : String) (factor : Float) : String :=
  "(" ++ left ++ " " ++ op.text ++ " " ++ right ++ ") * " ++ Layout.plain.text factor

section
variable {op : BinaryOp} {left right : String} {factor : Float}

theorem shows_scaledText (hleft : IsPath left) (hright : IsPath right)
    (hfinite : factor.isFinite = true) :
    Shows .expression (scaledText op left right factor).toList
      (readBack? (scaled op left right factor)) := by
  have hl : Shows op.category left.toList (some (.var left)) :=
    (Shows.var hleft).loosen (by cases op <;> decide)
  have hr : Shows op.operand right.toList (some (.var right)) :=
    (Shows.var hright).loosen (by cases op <;> decide)
  have hinner : Shows .expression (left.toList ++ ' ' :: op.chars ++ ' ' :: right.toList)
      (some (.binary op (.var left) (.var right))) :=
    (Shows.binary op hl hr).loosen (by cases op <;> decide)
  have hproduct := Shows.binary .mul (hinner.group.loosen (by decide)) (Shows.number hfinite)
  have hchars : (scaledText op left right factor).toList =
      ('(' :: (left.toList ++ ' ' :: op.chars ++ ' ' :: right.toList) ++ [')']) ++
        ' ' :: BinaryOp.mul.chars ++ ' ' :: Layout.plain.chars factor := by
    simp [scaledText, BinaryOp.text, BinaryOp.chars, Layout.text]
  rw [hchars]
  exact hproduct.loosen (by decide)

/-- The text is parsed, to an expression with the value of the one it is written for. -/
theorem parse_scaledText (hleft : IsPath left) (hright : IsPath right)
    (hfinite : factor.isFinite = true) :
    ∃ e, parse (scaledText op left right factor) = .ok e ∧ e.paths = [left, right] ∧
      ∀ scope, eval scope e = eval scope (scaled op left right factor) := by
  obtain ⟨t, ht, hpaths⟩ : ∃ t, readBack? (.number factor) = some t ∧ t.paths = [] := by
    rw [readBack?]
    split <;> exact ⟨_, rfl, rfl⟩
  have hback : readBack? (scaled op left right factor) =
      some (.binary .mul (.binary op (.var left) (.var right)) t) := by
    simp only [scaled, readBack?] at ht ⊢
    rw [ht]
    rfl
  have hshows : Shows .expression (scaledText op left right factor).toList _ :=
    shows_scaledText hleft hright hfinite
  rw [hback] at hshows
  have hparse := hshows.parse_eq_ok
  rw [String.ofList_toList] at hparse
  have hlegible : Legible (scaled op left right factor) :=
    .binary (.binary (.var hleft) (.var hright)) (.number hfinite)
  refine ⟨_, hparse, ?_, fun scope => eval_readBack hlegible hback⟩
  simp [paths, hpaths]

theorem eval_scaled (scope : Scope) : eval scope (scaled op left right factor) =
    .ok (combine .mul (combine op (.ofOption (scope left)) (.ofOption (scope right)))
      (.number factor)) := rfl

end

end Expr

open TableImport.Expr (IsPath Overlooked combine scaledText)

/-- What the right operand of a field counts as: nothing is divided by a missing number, for which
the other operators take 0. -/
def BinaryOp.orZero (op : BinaryOp) (y? : Option Float) : Option Float :=
  if op = .div then y? else some (y?.getD 0)

theorem BinaryOp.orZero_eq_self {op : BinaryOp} {y? : Option Float}
    (h : y?.isSome = true ∨ op = .div) : op.orZero y? = y? := by
  unfold orZero
  split
  · rfl
  · next hop =>
    obtain ⟨y, rfl⟩ := Option.isSome_iff_exists.mp (h.resolve_right hop)
    rfl

/-- Two operands and a factor are combined as in an expression, null standing for what is
missing. -/
theorem computeOperands_eq (d : Documents) (op : BinaryOp) (left : String) (right? : Option String)
    (multiplier? : Option Float) : computeOperands d op left right? multiplier? =
      (combine .mul (combine op (.ofOption (d.resolve left))
        (.ofOption (op.orZero (right?.bind d.resolve))))
        (.number (multiplier?.getD 1))).finite? := by
  unfold computeOperands
  cases d.resolve left with
  | none => rfl
  | some x =>
    generalize right?.bind d.resolve = y?
    cases op with
    | add | sub | mul => cases y? <;> rfl
    | div =>
      cases y? with
      | none => rfl
      | some y =>
        have hself : BinaryOp.orZero .div (some y) = some y := rfl
        rw [hself]
        cases hzero : y == 0 <;>
          simp [combine, Expr.BinaryOp.apply, Value.ofOption, Value.number?, Value.finite?, hzero]

/-- Arithmetic has a number for all operands but a divisor that is zero. -/
theorem apply_cases (op : BinaryOp) (x y : Float) :
    (op = .div ∧ (y == 0) = true) ∧ Expr.BinaryOp.apply op x y = .null ∨
      ¬(op = .div ∧ (y == 0) = true) ∧ ∃ z, Expr.BinaryOp.apply op x y = .number z := by
  cases op with
  | add | sub | mul => simp [Expr.BinaryOp.apply]
  | div => cases hzero : y == 0 <;> simp [Expr.BinaryOp.apply, hzero]

/-- Nothing comes of it where an operand is missing, a divisor is zero or the result is no finite
number. -/
theorem finite?_combine_eq_none_iff {op : BinaryOp} {x? y? : Option Float} {factor : Float} :
    (combine .mul (combine op (.ofOption x?) (.ofOption y?)) (.number factor)).finite? = none ↔
      x? = none ∨ y? = none ∨ ∃ x y, x? = some x ∧ y? = some y ∧
        (op = .div ∧ (y == 0) = true ∨
          ∃ z, Expr.BinaryOp.apply op x y = .number z ∧ (z * factor).isFinite = false) := by
  cases x? with
  | none => simp [combine, Value.ofOption, Value.number?, Value.finite?]
  | some x =>
    cases y? with
    | none => simp [combine, Value.ofOption, Value.number?, Value.finite?]
    | some y =>
      have hinner : combine op (.ofOption (some x)) (.ofOption (some y)) =
          Expr.BinaryOp.apply op x y := rfl
      rw [hinner]
      rcases apply_cases op x y with ⟨hdivisor, happly⟩ | ⟨hdivisor, z, happly⟩
      · have hproduct : combine .mul .null (.number factor) = .null := rfl
        rw [happly, hproduct, Value.finite?_eq_none_iff]
        simp [hdivisor]
      · have hproduct : combine .mul (.number z) (.number factor) = .number (z * factor) := rfl
        rw [happly, hproduct, Value.finite?_eq_none_iff]
        simp [hdivisor, happly]

namespace ComputedField
variable {f g : ComputedField} {op : BinaryOp} {left right : String} {factor : Float}
  {places? : Option UInt32} {d : Documents}

/-- The number of a field with such a text, where the text overlooks neither name. -/
theorem compute_scaledText (hg : g.formula = .expression (scaledText op left right factor) places?)
    (hleft : IsPath left) (hseen : ¬Overlooked left) (hright : IsPath right)
    (hseen' : ¬Overlooked right) (hfinite : factor.isFinite = true) (d : Documents) :
    g.compute d = (combine .mul (combine op (.ofOption (d.resolve left))
      (.ofOption (d.resolve right))) (.number factor)).finite?.map fun x =>
        applyPrecision x places? := by
  obtain ⟨e, hparse, hpaths, heval⟩ :
      ∃ e, Expr.parse (scaledText op left right factor) = .ok e ∧ _ :=
    Expr.parse_scaledText hleft hright hfinite
  have hvisible : Expr.eval d.visible e = Expr.eval d.resolve e := by
    apply Documents.eval_visible
    intro path hpath hoverlooked
    rw [Expr.variableNames, List.mem_eraseDups, hpaths, List.mem_pair] at hpath
    rcases hpath with rfl | rfl
    · exact absurd hoverlooked hseen
    · exact absurd hoverlooked hseen'
  apply compute_of_eval hg hparse
  rw [Documents.eval_mentioned hparse, hvisible, heval, Expr.eval_scaled]

/-- A field with two operands and a factor is the field with the expression that says the same, if
the right operand has a number or is a divisor: also in what it leaves out. -/
theorem compute_operands_eq_scaledText
    (hf : f.formula = .operands op left (some right) (some factor) places?)
    (hg : g.formula = .expression (scaledText op left right factor) places?)
    (hleft : IsPath left) (hseen : ¬Overlooked left) (hright : IsPath right)
    (hseen' : ¬Overlooked right) (hfinite : factor.isFinite = true) (d : Documents)
    (h : (d.resolve right).isSome = true ∨ op = .div) :
    f.compute d = g.compute d ∧
      (f.compute d = none ↔ d.resolve left = none ∨ d.resolve right = none ∨
        ∃ x y, d.resolve left = some x ∧ d.resolve right = some y ∧
          (op = .div ∧ (y == 0) = true ∨
            ∃ z, Expr.BinaryOp.apply op x y = .number z ∧ (z * factor).isFinite = false)) := by
  have hvalue := compute_scaledText hg hleft hseen hright hseen' hfinite d
  have hoperands : f.compute d = (computeOperands d op left (some right) (some factor)).map
      fun x => applyPrecision x places? := by
    rw [compute, hf]
    rfl
  rw [computeOperands_eq, Option.bind_some, op.orZero_eq_self h, Option.getD_some] at hoperands
  refine ⟨hoperands.trans hvalue.symm, ?_⟩
  rw [hoperands, Option.map_eq_none_iff, finite?_combine_eq_none_iff]

theorem compute_operands_eq_scaledText_rate :
    let f : ComputedField :=
      ⟨"rate", "rate", .primary, .operands .div "cost" (some "plays") (some 1000) (some 2)⟩
    let g : ComputedField :=
      ⟨"rate", "rate", .primary, .expression "(cost / plays) * 1000" (some 2)⟩
    let d : Documents := ⟨⟨[("cost", .int 5), ("plays", .int 400)]⟩, .empty⟩
    IsPath "cost" ∧ ¬Overlooked "cost" ∧ IsPath "plays" ∧ ¬Overlooked "plays" ∧
      Float.isFinite 1000 = true ∧ f.compute d = g.compute d ∧ g.compute d = some 12.5 := by
  intro f g d
  have hcost : IsPath "cost" := ⟨'c', ['o', 's', 't'], rfl, by decide, by simp⟩
  have hplays : IsPath "plays" := ⟨'p', ['l', 'a', 'y', 's'], rfl, by decide, by simp⟩
  have hseen : ¬Overlooked "cost" := by decide +kernel
  have hseen' : ¬Overlooked "plays" := by decide +kernel
  have hfinite : Float.isFinite 1000 = true := by decide +kernel
  have hfactor : Layout.plain.text 1000 = "1000" := by decide +kernel
  have htext : g.formula = .expression (scaledText .div "cost" "plays" 1000) (some 2) := by
    rw [scaledText, hfactor]
    rfl
  have heq : f.compute d = g.compute d :=
    (compute_operands_eq_scaledText rfl htext hcost hseen hplays hseen' hfinite d (.inr rfl)).1
  refine ⟨hcost, hseen, hplays, hseen', hfinite, heq, ?_⟩
  rw [← heq]
  decide +kernel

end ComputedField
end TableImport
