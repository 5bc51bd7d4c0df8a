import TableImport.Proofs.Number.Whole

/-! Rounding to 53 binary digits, which gives the double nearest to a quotient. -/
namespace TableImport.Binary64
open Float.Model (Format totalExponent)
open Float.Model.UnpackedFloat (Accuracy ExtendedMantissa Sign accuracyOfFraction pack
  packedInfinity roundWithAccuracy shiftToExponent shiftToTargetExponent)

/-! ### Significands with the bits that say how to round them -/

/-- A quotient cut to a whole number, with what is needed to round it. -/
def cutQuotient (a b : Nat) : ExtendedMantissa :=
  .ofMantissaAndAccuracy (a / b) (accuracyOfFraction (a % b) b)

variable {a b : Nat}

@[simp] theorem mantissa_cutQuotient (a b : Nat) : (cutQuotient a b).mantissa = a / b := by
  unfold cutQuotient
  rcases accuracyOfFraction (a % b) b with _ | _ | _ | _ <;> rfl

theorem cutQuotient_eq (a : Nat) (hb : 0 < b) :
    cutQuotient a b =
      ⟨a / b, decide (b ≤ 2 * (a % b)), decide (a % b ≠ 0 ∧ 2 * (a % b) ≠ b)⟩ := by
  unfold cutQuotient accuracyOfFraction
  by_cases hzero : a % b = 0
  · rw [if_pos hzero, hzero]
    simp [ExtendedMantissa.ofMantissaAndAccuracy, hb.ne']
  · rw [if_neg hzero]
    rcases Nat.lt_trichotomy (2 * (a % b)) b with h | h | h
    · rw [compare_lt_iff_lt.mpr h]
      simp [ExtendedMantissa.ofMantissaAndAccuracy, h, hzero, h.ne]
    · rw [compare_eq_iff_eq.mpr h]
      simp [ExtendedMantissa.ofMantissaAndAccuracy, h]
    · rw [compare_gt_iff_gt.mpr h]
      simp [ExtendedMantissa.ofMantissaAndAccuracy, h.le, hzero, h.ne']

/-- One bit less is the quotient by twice as much. -/
theorem shiftRightOne_cutQuotient (hb : 0 < b) :
    (cutQuotient a b).shiftRightOne = cutQuotient a (b * 2) := by
  rw [cutQuotient_eq a hb, cutQuotient_eq a (by omega), ExtendedMantissa.shiftRightOne,
    Nat.mod_mul, Nat.div_div_eq_div_mul]
  have hlt := Nat.mod_lt a hb
  simp only [ExtendedMantissa.mk.injEq, true_and]
  rcases Nat.mod_two_eq_zero_or_one (a / b) with h | h
  · rw [h]
    constructor
    · simp
      omega
    · rw [← Bool.decide_or, decide_eq_decide]
      omega
  · rw [h]
    constructor
    · simp
      omega
    · rw [← Bool.decide_or, decide_eq_decide]
      omega

theorem shiftRight_cutQuotient (hb : 0 < b) (n : Nat) :
    cutQuotient a b >>> n = cutQuotient a (b * 2 ^ n) := by
  show n.repeat ExtendedMantissa.shiftRightOne (cutQuotient a b) = _
  induction n with
  | zero => rw [Nat.pow_zero, Nat.mul_one, Nat.repeat]
  | succ n ih =>
    rw [Nat.repeat, ih, shiftRightOne_cutQuotient (Nat.mul_pos hb (Nat.two_pow_pos n)),
      Nat.pow_succ, Nat.mul_assoc]

theorem roundedMantissa_cutQuotient (hb : 0 < b) :
    (cutQuotient a b).roundedMantissa = divNearestEven a b := by
  have hlt := Nat.mod_lt a hb
  unfold cutQuotient accuracyOfFraction divNearestEven
  simp only
  by_cases hzero : a % b = 0
  · rw [if_pos hzero, if_pos (by omega)]
    rfl
  · rw [if_neg hzero]
    rcases Nat.lt_trichotomy (2 * (a % b)) b with h | h | h
    · rw [compare_lt_iff_lt.mpr h, if_pos (.inl h)]
      rfl
    · rw [compare_eq_iff_eq.mpr h]
      show a / b + a / b % 2 = _
      split <;> omega
    · rw [compare_gt_iff_gt.mpr h, if_neg (by omega)]
      rfl

theorem cutQuotient_one (m : Nat) : cutQuotient m 1 = ⟨m, false, false⟩ := by
  rw [cutQuotient_eq m Nat.one_pos, Nat.div_one, Nat.mod_one]
  rfl

/-! ### Rounding -/

/-- The places that a quotient loses to the significand: `s` is their exponent in units. -/
theorem shiftToTargetExponent_cutQuotient {e : Int} {k s : Nat} (hb : 0 < b)
    (he : e + k = s - 1074) (hhigh : a < b * 2 ^ (53 + k)) (hlow : s = 0 ∨ b * 2 ^ (52 + k) ≤ a) :
    shiftToTargetExponent Format.binary64 (a / b) e (accuracyOfFraction (a % b) b) =
      (cutQuotient a (b * 2 ^ k), (s : Int) - 1074) := by
  have hlogHigh : (a / b).log2 ≤ 52 + k := by
    by_cases hzero : a / b = 0
    · rw [hzero]
      exact Nat.zero_le _
    · have hlog := (Nat.log2_lt hzero).mpr (Nat.div_lt_of_lt_mul hhigh)
      omega
  have hlogLow : s = 0 ∨ 52 + k ≤ (a / b).log2 := by
    refine hlow.imp_right fun h => ?_
    have hle : 2 ^ (52 + k) ≤ a / b := by
      rw [Nat.le_div_iff_mul_le hb, Nat.mul_comm]
      exact h
    exact (Nat.le_log2 (Nat.ne_of_gt (lt_of_lt_of_le (Nat.two_pow_pos _) hle))).mpr hle
  have htarget : Format.binary64.targetExponent (totalExponent (a / b) e) = (s : Int) - 1074 := by
    show max (((a / b).log2 : Int) + 1 + e - 53) (-1074) = _
    omega
  have hshift : ((s : Int) - 1074 - e).toNat = k := by omega
  unfold shiftToTargetExponent shiftToExponent
  simp only [htarget, hshift, he, Prod.mk.injEq, and_true]
  exact shiftRight_cutQuotient hb k

theorem exponent_shiftToTargetExponent (m : Nat) (e : Int) (acc : Accuracy) :
    (shiftToTargetExponent Format.binary64 m e acc).2 =
      max e (max (totalExponent m e - 53) (-1074)) := by
  show e + ((max (totalExponent m e - 53) (-1074) - e).toNat : Int) = _
  omega

theorem mantissa_shiftToTargetExponent_exact (m : Nat) (e : Int) :
    (shiftToTargetExponent Format.binary64 m e .exact).1.mantissa =
      m / 2 ^ ((shiftToTargetExponent Format.binary64 m e .exact).2 - e).toNat := by
  have hexact : ExtendedMantissa.ofMantissaAndAccuracy m .exact = cutQuotient m 1 :=
    (cutQuotient_one m).symm
  unfold shiftToTargetExponent shiftToExponent
  simp only [hexact, shiftRight_cutQuotient Nat.one_pos, mantissa_cutQuotient, Nat.one_mul]
  congr 2
  omega

/-- A rounded significand of up to 53 bits: a carry into the next bit moves into the exponent. -/
theorem shiftToTargetExponent_carry {r s : Nat} (hle : r ≤ 2 ^ 53) (hge : s = 0 ∨ 2 ^ 52 ≤ r) :
    (shiftToTargetExponent Format.binary64 r ((s : Int) - 1074) .exact).1.mantissa =
        significand (s * 2 ^ 52 + r) ∧
      (shiftToTargetExponent Format.binary64 r ((s : Int) - 1074) .exact).2 =
        exponent (s * 2 ^ 52 + r) := by
  have hexponent := exponent_shiftToTargetExponent r ((s : Int) - 1074) .exact
  have hmantissa := mantissa_shiftToTargetExponent_exact r ((s : Int) - 1074)
  rcases Nat.lt_or_eq_of_le hle with hlt | rfl
  · have hlog : r.log2 ≤ 52 := by
      by_cases hzero : r = 0
      · rw [hzero]
        exact Nat.zero_le _
      · have hlog := (Nat.log2_lt hzero).mpr hlt
        omega
    have hlast : (shiftToTargetExponent Format.binary64 r ((s : Int) - 1074) .exact).2 =
        (s : Int) - 1074 := by
      rw [hexponent]
      unfold totalExponent
      omega
    rw [hlast, Int.sub_self, Int.toNat_zero, Nat.pow_zero, Nat.div_one] at hmantissa
    rw [hlast, hmantissa]
    unfold significand exponent
    constructor
    · split <;> omega
    · omega
  · have hlog : (2 ^ 53).log2 = 53 := Nat.log2_two_pow
    have hlast : (shiftToTargetExponent Format.binary64 (2 ^ 53) ((s : Int) - 1074) .exact).2 =
        (s : Int) - 1074 + 1 := by
      rw [hexponent]
      unfold totalExponent
      omega
    rw [hlast, add_sub_cancel_left, Int.toNat_one] at hmantissa
    rw [hlast, hmantissa]
    unfold significand exponent
    constructor
    · rw [if_neg (by omega)]
      omega
    · omega

/-- A quotient is rounded to the bits of its significand on top of those of its exponent. -/
theorem roundWithAccuracy_eq (sign : Sign) {e : Int} {k s : Nat} (hb : 0 < b)
    (he : e + k = s - 1074) (hhigh : a < b * 2 ^ (53 + k)) (hlow : s = 0 ∨ b * 2 ^ (52 + k) ≤ a) :
    roundWithAccuracy Format.binary64 sign (a / b) e (accuracyOfFraction (a % b) b) =
      unpacked sign (s * 2 ^ 52 + divNearestEven a (b * 2 ^ k)) := by
  have hscale : 0 < b * 2 ^ k := Nat.mul_pos hb (Nat.two_pow_pos k)
  have hle : divNearestEven a (b * 2 ^ k) ≤ 2 ^ 53 := by
    apply divNearestEven_le _ hscale
    rw [Nat.mul_left_comm, ← Nat.pow_add]
    exact hhigh.le
  have hge : s = 0 ∨ 2 ^ 52 ≤ divNearestEven a (b * 2 ^ k) := by
    refine hlow.imp_right fun h => le_divNearestEven_of_le ?_ hscale
    rwa [Nat.mul_left_comm, ← Nat.pow_add]
  obtain ⟨hmantissa, hexponent⟩ := shiftToTargetExponent_carry hle hge
  unfold roundWithAccuracy unpacked
  simp only [shiftToTargetExponent_cutQuotient hb he hhigh hlow, roundedMantissa_cutQuotient hscale,
    hmantissa, hexponent]

/-! ### Packing -/

/-- Bits from those of infinity on are packed as infinity. -/
theorem toBits_pack_unpacked (negative : Bool) (bits : Nat) :
    UInt64.ofBitVec (pack Format.binary64 (unpacked (signOf negative) bits)) =
      (ofSignBits negative (min bits infinityBits)).toBits := by
  rcases Nat.lt_or_ge bits infinityBits with h | h
  · rw [min_eq_left h.le, ← toBits_pack, unpack_ofSignBits h]
  · have hfield : 2047 ≤ bits / 2 ^ 52 := by
      unfold infinityBits at h
      omega
    have hne : significand bits ≠ 0 := by
      rw [Ne, significand_eq_zero]
      unfold infinityBits at h
      omega
    have hoverflow : 2 ^ 11 ≤ (exponent bits + 1023 + 52).toNat + 1 := by
      unfold exponent
      omega
    have hpack : pack Format.binary64 (unpacked (signOf negative) bits) =
        packedInfinity Format.binary64 (signOf negative) := by
      rw [unpacked, dif_neg hne, pack]
      exact if_pos hoverflow
    rw [min_eq_right h, hpack]
    cases negative with
    | false => decide
    | true => decide

/-- What is rounded to 53 binary digits is the double nearest to its value. -/
theorem toBits_pack_roundWithAccuracy (negative : Bool) {num den : Nat} {e : Int} {k s : Nat}
    (hb : 0 < b) (hden : 0 < den) (hs : s = placesLost (num * unitsOfOne) den)
    (he : e + k = s - 1074) (hvalue : a * 2 ^ s * den = num * unitsOfOne * (b * 2 ^ k)) :
    UInt64.ofBitVec (pack Format.binary64 (roundWithAccuracy Format.binary64 (signOf negative)
      (a / b) e (accuracyOfFraction (a % b) b))) = (nearest negative num den).toBits := by
  have hround : divNearestEven a (b * 2 ^ k) =
      divNearestEven (num * unitsOfOne) (den * 2 ^ s) := by
    apply divNearestEven_congr
    · exact Nat.mul_pos hb (Nat.two_pow_pos k)
    · exact Nat.mul_pos hden (Nat.two_pow_pos s)
    · rw [← hvalue]
      ring
  -- The bounds of the value in units are those of the significand.
  have hscale : 0 < 2 ^ s * den := Nat.mul_pos (Nat.two_pow_pos s) hden
  have hbk : 0 < b * 2 ^ k := Nat.mul_pos hb (Nat.two_pow_pos k)
  have hhigh : a < b * 2 ^ (53 + k) := by
    have hlt := lt_placesLost (num * unitsOfOne) hden
    rw [← hs] at hlt
    apply Nat.lt_of_mul_lt_mul_right (a := 2 ^ s * den)
    calc a * (2 ^ s * den) = num * unitsOfOne * (b * 2 ^ k) := by rw [← hvalue, Nat.mul_assoc]
      _ < den * 2 ^ (53 + s) * (b * 2 ^ k) := Nat.mul_lt_mul_of_pos_right hlt hbk
      _ = b * 2 ^ (53 + k) * (2 ^ s * den) := by ring
  have hlow : s = 0 ∨ b * 2 ^ (52 + k) ≤ a := by
    have hle := placesLost_le (num * unitsOfOne) hden
    rw [← hs] at hle
    refine hle.imp_right fun hle => ?_
    apply Nat.le_of_mul_le_mul_right _ hscale
    calc b * 2 ^ (52 + k) * (2 ^ s * den) = den * 2 ^ (52 + s) * (b * 2 ^ k) := by ring
      _ ≤ num * unitsOfOne * (b * 2 ^ k) := Nat.mul_le_mul_right _ hle
      _ = a * (2 ^ s * den) := by rw [← hvalue, Nat.mul_assoc]
  rw [roundWithAccuracy_eq (signOf negative) hb he hhigh hlow, toBits_pack_unpacked, nearest,
    nearestBits_eq, hround, hs]

end TableImport.Binary64
