import Mathlib
import TableImport.Number.Decimal

/-! The words of doubles: which sizes they give to the finite doubles and to zero. -/
namespace TableImport.Binary64
open Float.Model (Format UnpackedFloat)
open Float.Model.UnpackedFloat (unpackExponent)

/-- The word of a double, as the model of doubles takes it apart. -/
def word (x : Float) : BitVec Format.binary64.numBits := x.toBits.toBitVec

theorem toNat_word (x : Float) : (word x).toNat = x.toBits.toNat := rfl

theorem toNat_unpackExponent (w : BitVec Format.binary64.numBits) :
    (unpackExponent w).toNat = w.toNat / 2 ^ 52 % 2 ^ 11 := by
  simp [unpackExponent, BitVec.extractLsb_toNat, Nat.shiftRight_eq_div_pow]

/-- The size bits of a finite double stay below those of infinity. -/
theorem lt_infinityBits_of_isFinite {x : Float} (h : x.isFinite = true) :
    x.toBits.toNat % 2 ^ 63 < infinityBits := by
  have hexp : x.toBits.toNat / 2 ^ 52 % 2 ^ 11 ≠ 2047 := by
    intro hones
    have hw : unpackExponent (word x) = -1#11 := by
      apply BitVec.eq_of_toNat_eq
      rw [toNat_unpackExponent, toNat_word, hones]
      rfl
    have hnot : x.isFinite = false := by
      show UnpackedFloat.isFinite (UnpackedFloat.unpack Format.binary64 (word x)) = false
      unfold UnpackedFloat.unpack
      simp only [hw, if_true]
      split <;> rfl
    rw [h] at hnot
    cases hnot
  unfold infinityBits
  omega

theorem isNaN_of_isFinite {x : Float} (h : x.isFinite = true) : x.isNaN = false := by
  have hstatus : ∀ u : UnpackedFloat, u.isFinite = true → u.isNaN = false := by
    intro u hu
    cases u with
    | notANumber => cases hu
    | zero s => rfl
    | infinity s => rfl
    | finite s m e hm => rfl
  exact hstatus x.toModel.unpack h

/-- What is equal to zero has no bits set but the sign. -/
theorem size_eq_zero_of_beq_zero {x : Float} (h : (x == 0) = true) :
    x.toBits.toNat % 2 ^ 63 = 0 := by
  obtain ⟨-, -, rfl | ⟨rfl, -⟩ | ⟨rfl, -⟩⟩ := Float.beq_iff_ne_nan_and_eq.1 h
  · rfl
  · rfl
  · rfl

end TableImport.Binary64
