import TableImport.Proofs.Number.Places
import TableImport.Proofs.Row.Preparation

/-! Computed fields with a precision, whose numbers are rounded to decimal places: which whole
numbers stay as they are. -/
namespace TableImport

/-- Places are counted in 32 bits and taken as a signed number of as many bits. -/
theorem toInt_toInt32 (places : UInt32) : places.toInt32.toInt =
    if places.toNat < 2 ^ 31 then (places.toNat : Int) else places.toNat - 2 ^ 32 := by
  have hcond : places.toInt32.toInt = if 2 * places.toNat < 2 ^ 32 then (places.toNat : Int)
      else places.toNat - (2 ^ 32 : Nat) := BitVec.toInt_eq_toNat_cond places.toBitVec
  rw [hcond]
  split <;> split <;> omega

namespace ComputedField
variable {f : ComputedField} {d : Documents} {x : Float}

/-- The field with its number rounded to so many decimal places. -/
def withPrecision (f : ComputedField) (places : UInt32) : ComputedField :=
  { f with formula := f.formula.withPrecision places }

theorem compute_withPrecision (hf : f.formula.precision? = none) (places : UInt32)
    (d : Documents) : (f.withPrecision places).compute d =
      (f.compute d).map fun x => Binary64.roundTo x places.toInt32 := by
  obtain ⟨name, path, collection, ⟨text, _⟩ | ⟨op, left, right?, multiplier?, _⟩⟩ := f
  all_goals
    cases hf
    simp only [compute, withPrecision, Formula.withPrecision, Formula.precision?, applyPrecision,
      Option.map_map]
    rfl

/-- Rounding to decimal places keeps a whole number whose digits leave room for as many more. From
309 places on the number is lost and the field left out. From 2³¹ on the places count backwards
from 2³², in front of the point: there 17 of them and more leave zero of every number below 2⁵³,
and 309 and more nothing. -/
theorem compute_withPrecision_of_isWhole (hf : f.formula.precision? = none)
    (hx : f.compute d = some x) (hwhole : Binary64.isWhole x = true)
    (hsmall : Binary64.whole x < 2 ^ 53) (places : UInt32) :
    (places.toNat ≤ 308 → Binary64.whole x * 5 ^ places.toNat < 2 ^ 53 →
      (f.withPrecision places).compute d = some x) ∧
    (309 ≤ places.toNat → places.toNat ≤ 2 ^ 32 - 309 →
      (∃ y, (f.withPrecision places).compute d = some y ∧ y.isNaN = true) ∧
        d.addComputed (CompiledField.compile (f.withPrecision places)) = d) ∧
    (2 ^ 32 - 308 ≤ places.toNat → places.toNat ≤ 2 ^ 32 - 17 →
      ∃ y, (f.withPrecision places).compute d = some y ∧ (y == 0) = true) := by
  have hplaces := toInt_toInt32 places
  have hbound : places.toNat < 2 ^ 32 := places.toNat_lt
  rw [compute_withPrecision hf, hx]
  simp only [Option.map_some, Option.some.injEq]
  refine ⟨fun hle hroom => ?_, fun hlow hhigh => ?_, fun hlow hhigh => ?_⟩
  · have hself : places.toInt32.toInt = places.toNat := by
      rw [hplaces, if_pos (by omega)]
    apply Binary64.roundTo_of_isWhole hwhole
    · omega
    · omega
    · rwa [hself, Int.natAbs_natCast]
  · have hfar : 309 ≤ places.toInt32.toInt.natAbs := by
      rw [hplaces]
      split <;> omega
    have hnan := Binary64.isNaN_roundTo (Binary64.isWhole_iff.mp hwhole).1 hfar
    refine ⟨⟨_, rfl, hnan⟩, ?_⟩
    apply CompiledField.Omits.addComputed
    rw [CompiledField.Omits, CompiledField.evaluate_compile, compute_withPrecision hf, hx]
    apply jsonNumber?_eq_none_iff.mpr
    by_contra hfinite
    have hnot := Binary64.isNaN_of_isFinite (eq_true_of_ne_false hfinite)
    rw [hnan] at hnot
    cases hnot
  · have hfront : places.toInt32.toInt = places.toNat - 2 ^ 32 := by
      rw [hplaces, if_neg (by omega)]
    refine ⟨_, rfl, ?_⟩
    rw [Binary64.roundTo_eq_zero hwhole hsmall (by omega) (by omega)]
    cases Binary64.isNegative x with
    | false => decide +kernel
    | true => decide +kernel

section
open Binary64 (isWhole whole)

/-- The field `v`, without a precision. -/
def plain : ComputedField := ⟨"f", "f", .primary, .expression "v" none⟩

/-- Documents in which `v` is 15. -/
def fifteen : Documents := ⟨⟨[("v", .int 15)]⟩, .empty⟩

theorem compute_plain : plain.compute fifteen = some 15 := by
  have hparse : Expr.parse "v" = .ok (.var "v") := by rfl
  have heval : Expr.eval (fifteen.scope (Expr.mentioned "v")) (.var "v") = .ok (.number 15) := by
    have hresolve : fifteen.scope (Expr.mentioned "v") "v" = some 15 := by decide +kernel
    rw [Expr.eval, hresolve]
    rfl
  rw [compute_of_eval rfl hparse heval]
  rfl

/-- The number 15 stays with two decimal places, is no number with 400 of them, and zero where the
places count backwards from 2³². -/
theorem compute_withPrecision_of_isWhole_fifteen :
    plain.formula.precision? = none ∧ plain.compute fifteen = some 15 ∧ isWhole 15 = true ∧
      whole 15 * 5 ^ 2 < 2 ^ 53 ∧ (plain.withPrecision 2).compute fifteen = some 15 ∧
      (∃ y, (plain.withPrecision 400).compute fifteen = some y ∧ y.isNaN = true) ∧
      fifteen.addComputed (CompiledField.compile (plain.withPrecision 400)) = fifteen ∧
      ∃ y, (plain.withPrecision 4294967200).compute fifteen = some y ∧ (y == 0) = true := by
  have hwhole : isWhole 15 = true := by decide +kernel
  have hsmall : whole 15 < 2 ^ 53 := by decide +kernel
  have hkept := (compute_withPrecision_of_isWhole rfl compute_plain hwhole hsmall 2).1
  have hlost := (compute_withPrecision_of_isWhole rfl compute_plain hwhole hsmall 400).2.1
  have hzero := (compute_withPrecision_of_isWhole rfl compute_plain hwhole hsmall 4294967200).2.2
  refine ⟨rfl, compute_plain, hwhole, by decide +kernel, hkept (by decide) (by decide +kernel),
    (hlost (by decide) (by decide)).1, (hlost (by decide) (by decide)).2,
    hzero (by decide) (by decide)⟩

/-- With the largest count of places 15 is rounded to tens. -/
theorem compute_withPrecision_tens : plain.formula.precision? = none ∧
    plain.compute fifteen = some 15 ∧ isWhole 15 = true ∧ whole 15 < 2 ^ 53 ∧
      (plain.withPrecision 4294967295).compute fifteen ≠ some 15 := by
  have htens : (Binary64.roundTo 15 (4294967295 : UInt32).toInt32).toBits ≠ Float.toBits 15 := by
    decide +kernel
  refine ⟨rfl, compute_plain, by decide +kernel, by decide +kernel, fun h => htens ?_⟩
  rw [compute_withPrecision rfl, compute_plain, Option.map_some, Option.some.injEq] at h
  rw [h]

end

end ComputedField
end TableImport
