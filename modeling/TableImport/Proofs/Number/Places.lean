import TableImport.Proofs.Number.Powers

/-! Whole doubles rounded to decimal places: where they stay, where they are lost. -/
namespace TableImport.Binary64
variable {x : Float} {k : Int32}

/-! ### Powers of ten as factors -/

/-- The size bits of the power of ten for so many places, or of its inverse. -/
def placesBits (k : Int32) : Nat := tenPowerBits k.toInt.natAbs

theorem natAbs_toInt_lt (k : Int32) : k.toInt.natAbs < 2 ^ 32 := by
  have hlow := k.le_toInt
  have hhigh := k.toInt_lt
  omega

theorem powerOfTen_of_nonneg (hk : 0 ≤ k.toInt) :
    powerOfTen k = ofSignBits false (placesBits k) := by
  have hnot : ¬k < 0 := by
    rw [Int32.lt_iff_toInt_lt]
    exact Int.not_lt.mpr hk
  rw [powerOfTen_eq, if_neg hnot]
  rfl

theorem powerOfTen_of_neg (hk : k.toInt < 0) :
    powerOfTen k = 1 / ofSignBits false (placesBits k) := by
  have hneg : k < 0 := by
    rw [Int32.lt_iff_toInt_lt]
    exact hk
  rw [powerOfTen_eq, if_pos hneg]
  rfl

/-! ### Whole doubles that stay -/

theorem isWhole_ofSignBits {negative : Bool} {b n : Nat} (hb : b < infinityBits)
    (hunits : n * unitsOfOne = unitsOfBits b) : isWhole (ofSignBits negative b) = true := by
  refine isWhole_iff.mpr ⟨isFinite_ofSignBits hb, ?_⟩
  rw [fraction, units_ofSignBits hb.le, ← hunits, Nat.mul_mod_left]

theorem placesBits_pos (k : Int32) : 0 < placesBits k := by
  have hone : ∀ s, 0 < twoPowBits s := by
    intro s
    unfold twoPowBits
    omega
  exact lt_of_lt_of_le (hone _) (le_tenPowerBits (natAbs_toInt_lt k))

/-- A double is multiplied and divided back where its product is the value of a whole double. -/
theorem round_mul_div {b c n : Nat} (hx : x.isFinite = true) (hb : b < infinityBits) (hpos : 0 < b)
    (hc : c < infinityBits) (hwhole : n * unitsOfOne = unitsOfBits c)
    (h : units x * unitsOfBits b = unitsOfBits c * unitsOfOne) :
    round (x * ofSignBits false b) / ofSignBits false b = x := by
  rw [mul_ofSignBits_of_units hx hb hc h, round_of_isWhole (isWhole_ofSignBits hc hwhole),
    div_ofSignBits_of_units (isFinite_ofSignBits hc) hb hpos (lt_infinityBits_of_isFinite hx),
    isNegative_ofSignBits hc.le, ofSignBits_size]
  rw [units_ofSignBits hc.le, ← h]
  rfl

/-- A whole double stays as it is rounded to as many places as its digits leave room for. -/
theorem roundTo_of_isWhole (hx : isWhole x = true) (hk : 0 ≤ k.toInt) (hle : k.toInt.natAbs ≤ 308)
    (hsmall : whole x * 5 ^ k.toInt.natAbs < 2 ^ 53) : roundTo x k = x := by
  have hxfinite := (isWhole_iff.mp hx).1
  have hb : placesBits k < infinityBits := tenPowerBits_lt hle
  rw [roundTo, powerOfTen_of_nonneg hk]
  rcases Nat.eq_zero_or_pos (whole x) with hzero | hpos
  · have hunits : units x = 0 := by rw [units_of_isWhole hx, hzero, Nat.zero_mul]
    have hbits : unitsOfBits 0 = 0 := rfl
    refine round_mul_div (c := 0) (n := 0) hxfinite hb (placesBits_pos k) (by decide) ?_ ?_
    · rw [hbits, Nat.zero_mul]
    · rw [hbits, hunits, Nat.zero_mul, Nat.zero_mul]
  · have hexact : k.toInt.natAbs ≤ 22 := by
      by_contra hlarge
      have hpow : 5 ^ 23 ≤ 5 ^ k.toInt.natAbs := Nat.pow_le_pow_right (by decide) (by omega)
      have hroom : 5 ^ k.toInt.natAbs < 2 ^ 53 :=
        lt_of_le_of_lt (Nat.le_mul_of_pos_left _ hpos) hsmall
      exact absurd (hpow.trans_lt hroom) (by decide)
    have hunits : unitsOfBits (placesBits k) = 10 ^ k.toInt.natAbs * unitsOfOne :=
      unitsOfBits_tenPowerBits hexact
    obtain ⟨c, hc, hcunits⟩ := exists_bits_mul_two_pow hsmall (j := k.toInt.natAbs) (by omega)
    rw [Nat.mul_assoc (whole x), ← Nat.mul_pow, show 5 * 2 = 10 from rfl] at hcunits
    apply round_mul_div hxfinite hb (placesBits_pos k) hc hcunits
    rw [← hcunits, hunits, units_of_isWhole hx]
    ring

/-! ### Whole doubles that are lost -/

/-- From 309 places on, before or behind the point, nothing is left of a number. -/
theorem isNaN_roundTo (hx : x.isFinite = true) (hk : 309 ≤ k.toInt.natAbs) :
    (roundTo x k).isNaN = true := by
  have hbits : placesBits k = infinityBits := tenPowerBits_eq_infinityBits hk (natAbs_toInt_lt k)
  rw [roundTo]
  rcases Int.lt_or_le k.toInt 0 with hneg | hnonneg
  · have hinverse : 1 / ofSignBits false infinityBits = ofSignBits false 0 :=
      Float.toBits_inj.mp (by decide)
    have hproduct : x * ofSignBits false 0 = ofSignBits (isNegative x) 0 :=
      mul_ofSignBits_of_units hx (by decide) (by decide) (by
        rw [show unitsOfBits 0 = 0 from rfl, Nat.mul_zero, Nat.zero_mul])
    rw [powerOfTen_of_neg hneg, hbits, hinverse, hproduct,
      round_of_isWhole (isWhole_ofSignBits (n := 0) (by decide) (Nat.zero_mul _))]
    cases isNegative x with
    | false => decide
    | true => decide
  · have hproduct := isFinite_mul_infinity hx
    have hround : round (x * infinity) = x * infinity := by
      rw [round, mapWhole, hproduct, if_neg Bool.false_ne_true]
    rw [powerOfTen_of_nonneg hnonneg, hbits]
    show (round (x * infinity) / infinity).isNaN = true
    rw [hround]
    exact isNaN_div_infinity hproduct

/-- The size bits of the inverse of a power of two. -/
def inverseTwoPowBits (s : Nat) : Nat := (1023 - s) * 2 ^ 52

theorem unitsOfBits_inverseTwoPowBits {s : Nat} (hs : s < 1023) :
    unitsOfBits (inverseTwoPowBits s) * 2 ^ s = unitsOfOne := by
  obtain ⟨k, hk⟩ : ∃ k, k = 1074 := ⟨_, rfl⟩
  have hexponent : 1023 - s + 51 + s = k := by omega
  rw [inverseTwoPowBits, unitsOfBits_exponent (by omega), unitsOfOne_eq hk, ← Nat.pow_add,
    hexponent]

/-- The inverse of a finite double from 2⁵⁶ on is not above 2⁻⁵⁶, and it is not zero. -/
theorem inverse_ofSignBits {b : Nat} (hlow : twoPowBits 56 ≤ b) (hb : b < infinityBits) :
    ∃ c, 0 < c ∧ c ≤ inverseTwoPowBits 56 ∧ 1 / ofSignBits false b = ofSignBits false c := by
  have hpos : 0 < b := lt_of_lt_of_le (by decide) hlow
  have hunits : 0 < unitsOfBits b := unitsOfBits_strictMono hpos
  have hbelow := unitsOfBits_strictMono.monotone hlow
  have habove := unitsOfBits_strictMono.monotone (hb.le.trans_eq twoPowBits_top.symm)
  rw [unitsOfBits_twoPowBits] at hbelow habove
  rw [show min 56 1024 = 56 from rfl] at hbelow
  refine ⟨nearestBits unitsOfOne (unitsOfBits b), ?_, ?_, ?_⟩
  · apply le_nearestBits hunits (b := 1) (by decide)
    rw [show unitsOfBits 1 = 1 from rfl, Nat.one_mul]
    exact habove.trans (Nat.mul_le_mul_right _ (two_pow_le_unitsOfOne (by decide)))
  · apply nearestBits_le hunits (by decide)
    calc unitsOfOne * unitsOfOne
        = unitsOfBits (inverseTwoPowBits 56) * (2 ^ 56 * unitsOfOne) := by
          rw [← Nat.mul_assoc, unitsOfBits_inverseTwoPowBits (by decide)]
      _ ≤ unitsOfBits (inverseTwoPowBits 56) * unitsOfBits b := Nat.mul_le_mul_left _ hbelow
  · have hone : units 1 = unitsOfOne := by
      rw [one_eq, units_ofSignBits (twoPowBits_le_infinityBits 0), unitsOfBits_twoPowBits,
        Nat.zero_min, Nat.pow_zero, Nat.one_mul]
    have hsign : isNegative 1 = false := by decide
    rw [div_ofSignBits (by decide) hb hpos, hone, hsign]
    rfl

/-- What is not above an eighth is rounded to zero. -/
theorem round_ofSignBits_of_small {negative : Bool} {b : Nat} (hb : b ≤ inverseTwoPowBits 3) :
    round (ofSignBits negative b) = ofSignBits negative 0 := by
  have hlt : b < infinityBits := lt_of_le_of_lt hb (by decide)
  have hunits : units (ofSignBits negative b) * 2 ^ 3 ≤ unitsOfOne := by
    rw [units_ofSignBits hlt.le]
    exact (Nat.mul_le_mul_right _ (unitsOfBits_strictMono.monotone hb)).trans_eq
      (unitsOfBits_inverseTwoPowBits (by decide))
  have hone := unitsOfOne_pos
  have hbelow : units (ofSignBits negative b) < unitsOfOne := by omega
  have hwhole : whole (ofSignBits negative b) = 0 := Nat.div_eq_of_lt hbelow
  have hfraction : ¬unitsOfOne ≤ 2 * fraction (ofSignBits negative b) := by
    have hle : fraction (ofSignBits negative b) ≤ units (ofSignBits negative b) := Nat.mod_le _ _
    omega
  rw [round, mapWhole, if_pos (isFinite_ofSignBits hlt), if_neg hfraction, hwhole,
    isNegative_ofSignBits hlt.le, nearest, nearestBits_zero]

/-- Rounded to more places before the point than they have digits, whole numbers are zero. -/
theorem roundTo_eq_zero (hx : isWhole x = true) (hsmall : whole x < 2 ^ 53) (hk : k.toInt ≤ -17)
    (hle : k.toInt.natAbs ≤ 308) : roundTo x k = ofSignBits (isNegative x) 0 := by
  have hxfinite := (isWhole_iff.mp hx).1
  have hlow : twoPowBits 56 ≤ placesBits k := by
    have hlarge : 17 ≤ k.toInt.natAbs := by omega
    refine le_trans ?_ (le_tenPowerBits (natAbs_toInt_lt k))
    generalize k.toInt.natAbs = e at hlarge
    have hsum : 56 ≤ 3 * (e % 16) + 53 * (e / 16 % 8) + 425 * (e / 128) := by
      by_cases hhigh : 128 ≤ e
      · omega
      · have hmiddle : e / 16 % 8 = e / 16 := by omega
        omega
    exact twoPowBits_mono hsum
  obtain ⟨b, hpos, htiny, hinverse⟩ := inverse_ofSignBits hlow (tenPowerBits_lt hle)
  have hb : b < infinityBits := lt_of_le_of_lt htiny (by decide)
  have hunits : unitsOfBits b * 2 ^ 56 ≤ unitsOfOne :=
    (Nat.mul_le_mul_right _ (unitsOfBits_strictMono.monotone htiny)).trans_eq
      (unitsOfBits_inverseTwoPowBits (by decide))
  have hproduct : nearestBits (units x * unitsOfBits b) (unitsOfOne * unitsOfOne) ≤
      inverseTwoPowBits 3 := by
    apply nearestBits_le (Nat.mul_pos unitsOfOne_pos unitsOfOne_pos) (by decide)
    apply Nat.le_of_mul_le_mul_right _ (Nat.two_pow_pos 56)
    calc units x * unitsOfBits b * unitsOfOne * 2 ^ 56
        = whole x * (unitsOfBits b * 2 ^ 56) * (unitsOfOne * unitsOfOne) := by
          rw [units_of_isWhole hx]
          ring
      _ ≤ 2 ^ 53 * unitsOfOne * (unitsOfOne * unitsOfOne) :=
        Nat.mul_le_mul_right _ (Nat.mul_le_mul hsmall.le hunits)
      _ = 2 ^ 53 * (unitsOfBits (inverseTwoPowBits 3) * 2 ^ 3) * (unitsOfOne * unitsOfOne) := by
          rw [unitsOfBits_inverseTwoPowBits (by decide)]
      _ = unitsOfBits (inverseTwoPowBits 3) * (unitsOfOne * unitsOfOne) * 2 ^ 56 := by ring
  have hzero : 0 < infinityBits := by decide
  rw [roundTo, powerOfTen_of_neg (by omega), hinverse, mul_ofSignBits hxfinite hb, nearest,
    round_ofSignBits_of_small hproduct,
    div_ofSignBits_of_units (isFinite_ofSignBits hzero) hb hpos hzero,
    isNegative_ofSignBits hzero.le]
  rw [units_ofSignBits hzero.le, show unitsOfBits 0 = 0 from rfl, Nat.zero_mul, Nat.zero_mul]

end TableImport.Binary64
