import TableImport.Proofs.Number.Order

/-! Whole doubles, and whole numbers as doubles. -/
namespace TableImport.Binary64

/-- The number of units in one, for an exponent that is not evaluated. -/
theorem unitsOfOne_eq {k : Nat} (hk : k = 1074) : unitsOfOne = 2 ^ k := by rw [unitsOfOne, hk]

theorem unitsOfOne_pos : 0 < unitsOfOne := by
  obtain ⟨k, hk⟩ : ∃ k, k = 1074 := ⟨_, rfl⟩
  rw [unitsOfOne_eq hk]
  exact Nat.two_pow_pos k

theorem two_pow_le_unitsOfOne {s : Nat} (hs : s ≤ 1074) : 2 ^ s ≤ unitsOfOne := by
  obtain ⟨k, hk⟩ : ∃ k, k = 1074 := ⟨_, rfl⟩
  rw [unitsOfOne_eq hk]
  exact Nat.pow_le_pow_right (by decide) (hk ▸ hs)

/-! ### Whole doubles -/

section
variable {x : Float}

theorem isWhole_iff : isWhole x = true ↔ x.isFinite = true ∧ fraction x = 0 := by simp [isWhole]

theorem units_of_isWhole (h : isWhole x = true) : units x = whole x * unitsOfOne := by
  have hfraction : units x % unitsOfOne = 0 := (isWhole_iff.mp h).2
  exact (Nat.div_mul_cancel (Nat.dvd_of_mod_eq_zero hfraction)).symm

/-- The size of a whole double compared with a bound that is one. -/
theorem abs_lt_iff_whole_lt {y : Float} {n : Nat} (hx : isWhole x = true) (hy : y.isFinite = true)
    (hsign : isNegative y = false) (hn : units y = n * unitsOfOne) :
    x.abs < y ↔ whole x < n := by
  rw [abs_lt_iff (isWhole_iff.mp hx).1 hy hsign, units_of_isWhole hx, hn,
    Nat.mul_lt_mul_right unitsOfOne_pos]

theorem le_abs_iff_le_whole {y : Float} {n : Nat} (hx : isWhole x = true) (hy : y.isFinite = true)
    (hsign : isNegative y = false) (hn : units y = n * unitsOfOne) :
    y ≤ x.abs ↔ n ≤ whole x := by
  rw [le_abs_iff (isWhole_iff.mp hx).1 hy hsign, units_of_isWhole hx, hn,
    Nat.mul_le_mul_right_iff unitsOfOne_pos]

/-- Rounding leaves a whole double as it is. -/
theorem round_of_isWhole (h : isWhole x = true) : round x = x := by
  obtain ⟨hfinite, hfraction⟩ := isWhole_iff.mp h
  have hdown : ¬unitsOfOne ≤ 2 * fraction x := by
    rw [hfraction]
    exact Nat.not_le_of_gt unitsOfOne_pos
  have hbits : nearestBits (whole x) 1 = size x := by
    apply nearestBits_of_units Nat.one_pos (lt_infinityBits_of_isFinite hfinite).le
    rw [← units_of_isWhole h, Nat.mul_one]
    rfl
  rw [round, mapWhole, if_pos hfinite, if_neg hdown, nearest, hbits]
  exact ofSignBits_size x

/-- A whole double of 64 bits keeps its value as a machine number. -/
theorem toInt_toInt64 (h : isWhole x = true) (hsmall : whole x < 2 ^ 63) :
    (toInt64 x).toInt = if isNegative x then -(whole x : Int) else whole x := by
  have hfinite := (isWhole_iff.mp h).1
  have htruncate : truncate (-2 ^ 63) (2 ^ 63 - 1) x =
      if isNegative x then -(whole x : Int) else whole x := by
    simp only [truncate, isNaN_of_isFinite hfinite, hfinite, if_true, Bool.false_eq_true, if_false]
    split <;> omega
  rw [toInt64, htruncate]
  apply Int64.toInt_ofInt_of_le
  · split <;> omega
  · split <;> omega

end

/-! ### Whole numbers -/

/-- Whole numbers below 2⁵³ are the values of doubles, and so are they times powers of two. -/
theorem exists_bits_mul_two_pow {n j : Nat} (h : n < 2 ^ 53) (hj : j ≤ 900) :
    ∃ b, b < infinityBits ∧ n * 2 ^ j * unitsOfOne = unitsOfBits b := by
  by_cases hzero : n = 0
  · subst hzero
    refine ⟨0, by decide, ?_⟩
    rw [Nat.zero_mul, Nat.zero_mul]
    rfl
  · have hlog : n.log2 < 53 := (Nat.log2_lt hzero).2 h
    have hlow : 2 ^ n.log2 ≤ n := Nat.log2_self_le hzero
    have hhigh : n < 2 ^ (n.log2 + 1) := Nat.lt_log2_self
    -- The leading bit of the number is moved to the place above the significand's field.
    have hleading : 2 ^ 52 ≤ n * 2 ^ (52 - n.log2) := by
      calc 2 ^ 52 = 2 ^ n.log2 * 2 ^ (52 - n.log2) := by rw [← Nat.pow_add]; congr 1; omega
        _ ≤ n * 2 ^ (52 - n.log2) := Nat.mul_le_mul_right _ hlow
    have hnext : n * 2 ^ (52 - n.log2) < 2 ^ 53 := by
      calc n * 2 ^ (52 - n.log2) < 2 ^ (n.log2 + 1) * 2 ^ (52 - n.log2) :=
            Nat.mul_lt_mul_of_pos_right hhigh (Nat.two_pow_pos _)
        _ = 2 ^ 53 := by rw [← Nat.pow_add]; congr 1; omega
    have hvalue : n * 2 ^ j * unitsOfOne = n * 2 ^ (52 - n.log2) * 2 ^ (1022 + n.log2 + j) := by
      obtain ⟨k, hk⟩ : ∃ k, k = 1074 := ⟨_, rfl⟩
      have hexponent : 52 - n.log2 + (1022 + n.log2 + j) = j + k := by omega
      rw [Nat.mul_assoc, Nat.mul_assoc, unitsOfOne_eq hk, ← Nat.pow_add, ← Nat.pow_add, hexponent]
    rw [hvalue]
    generalize n * 2 ^ (52 - n.log2) = s at hleading hnext
    refine ⟨(1022 + n.log2 + j) * 2 ^ 52 + s, by unfold infinityBits; omega, ?_⟩
    have hfraction : ((1022 + n.log2 + j) * 2 ^ 52 + s) % 2 ^ 52 = s - 2 ^ 52 := by omega
    have hexponent : ((1022 + n.log2 + j) * 2 ^ 52 + s) / 2 ^ 52 - 1 = 1022 + n.log2 + j := by
      omega
    have hsignificand : 2 ^ 52 + (s - 2 ^ 52) = s := by omega
    rw [unitsOfBits, if_neg (by omega), hfraction, hexponent, hsignificand]

theorem exists_bits {n : Nat} (h : n < 2 ^ 53) :
    ∃ b, b < infinityBits ∧ n * unitsOfOne = unitsOfBits b := by
  have hbits := exists_bits_mul_two_pow (j := 0) h (Nat.zero_le _)
  rwa [Nat.pow_zero, Nat.mul_one] at hbits

/-- Whole numbers below 2⁵³ are the values of doubles. -/
theorem ofInt_of_lt {i : Int} (h : i.natAbs < 2 ^ 53) :
    isWhole (ofInt i) = true ∧ whole (ofInt i) = i.natAbs ∧
      isNegative (ofInt i) = decide (i < 0) := by
  obtain ⟨b, hb, hunits⟩ := exists_bits h
  have hbits : ofInt i = ofSignBits (decide (i < 0)) b := by
    rw [ofInt, nearest, nearestBits_of_units Nat.one_pos hb.le (by rw [hunits, Nat.mul_one])]
  have hsize : units (ofInt i) = i.natAbs * unitsOfOne := by
    rw [hbits, units_eq_size, size_ofSignBits hb.le, hunits]
  refine ⟨isWhole_iff.mpr ⟨?_, ?_⟩, ?_, ?_⟩
  · rw [hbits]
    exact isFinite_ofSignBits hb
  · rw [fraction, hsize, Nat.mul_mod_left]
  · rw [whole, hsize, Nat.mul_div_cancel _ unitsOfOne_pos]
  · rw [hbits, isNegative_ofSignBits hb.le]

theorem toInt64_ofInt {i : Int} (h : i.natAbs < 2 ^ 53) : (toInt64 (ofInt i)).toInt = i := by
  obtain ⟨hwhole, habs, hsign⟩ := ofInt_of_lt h
  rw [toInt_toInt64 hwhole (by omega), habs, hsign]
  split
  · next hneg => rw [decide_eq_true_eq] at hneg; omega
  · next hnonneg => rw [decide_eq_true_eq] at hnonneg; omega

/-! ### Bounds that are doubles -/

theorem unitsOfBits_exponent {e : Nat} (he : 0 < e) : unitsOfBits (e * 2 ^ 52) = 2 ^ (e + 51) := by
  have hexponent : 52 + (e - 1) = e + 51 := by omega
  rw [unitsOfBits, if_neg (by omega), Nat.mul_mod_left, Nat.add_zero,
    Nat.mul_div_cancel _ (Nat.two_pow_pos 52), ← Nat.pow_add, hexponent]

/-- The size bits of a power of two. -/
theorem unitsOfBits_two_pow (s : Nat) :
    unitsOfBits ((1023 + s) * 2 ^ 52) = 2 ^ s * unitsOfOne := by
  obtain ⟨k, hk⟩ : ∃ k, k = 1074 := ⟨_, rfl⟩
  have hexponent : 1023 + s + 51 = s + k := by omega
  rw [unitsOfBits_exponent (by omega), unitsOfOne_eq hk, hexponent, Nat.pow_add]

section
variable {num den b : Nat}

theorem nearestBits_le (hden : 0 < den) (hb : b ≤ infinityBits)
    (h : num * unitsOfOne ≤ unitsOfBits b * den) : nearestBits num den ≤ b :=
  (nearestBits_mono hden unitsOfOne_pos h).trans_eq (nearestBits_of_units unitsOfOne_pos hb rfl)

theorem le_nearestBits (hden : 0 < den) (hb : b ≤ infinityBits)
    (h : unitsOfBits b * den ≤ num * unitsOfOne) : b ≤ nearestBits num den :=
  (nearestBits_of_units unitsOfOne_pos hb rfl).symm.trans_le
    (nearestBits_mono unitsOfOne_pos hden h)

end

/-- Whole numbers from 2⁵³ on are not taken to smaller doubles. -/
theorem two_pow_le_nearestBits {n : Nat} (h : 2 ^ 53 ≤ n) :
    (1023 + 53) * 2 ^ 52 ≤ nearestBits n 1 := by
  apply le_nearestBits Nat.one_pos (by decide)
  rw [unitsOfBits_two_pow, Nat.mul_one]
  exact Nat.mul_le_mul_right _ h

theorem size_ofInt (i : Int) : size (ofInt i) = nearestBits i.natAbs 1 :=
  size_ofSignBits (Nat.min_le_right _ _)

theorem le_units_ofInt {i : Int} (h : 2 ^ 53 ≤ i.natAbs) :
    2 ^ 53 * unitsOfOne ≤ units (ofInt i) := by
  rw [← unitsOfBits_two_pow, units_eq_size, size_ofInt]
  exact unitsOfBits_strictMono.monotone (two_pow_le_nearestBits h)

end TableImport.Binary64
