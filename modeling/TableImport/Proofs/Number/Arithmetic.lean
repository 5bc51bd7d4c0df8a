import TableImport.Proofs.Number.Rounding

/-! Products and quotients of doubles: the doubles nearest to those of their values. -/
namespace TableImport.Binary64
open Float.Model (Format UnpackedFloat)
open Float.Model.UnpackedFloat (Accuracy Sign divCore pack roundWithAccuracy unpack)

/-! ### Sizes by significand and exponent -/

/-- The exponent of doubles with these size bits, counted from that of one unit. -/
def scale (b : Nat) : Nat := b / 2 ^ 52 - 1

theorem exponent_eq_scale (b : Nat) : exponent b = (scale b : Int) - 1074 := by
  unfold exponent scale
  omega

theorem unitsOfBits_eq_significand (b : Nat) : unitsOfBits b = significand b * 2 ^ scale b := by
  unfold unitsOfBits significand scale
  by_cases hsmall : b < 2 ^ 52
  · have hzero : b / 2 ^ 52 = 0 := Nat.div_eq_of_lt hsmall
    rw [if_pos hsmall, if_pos hzero, hzero, Nat.mod_eq_of_lt hsmall, Nat.zero_sub, Nat.pow_zero,
      Nat.mul_one]
  · rw [if_neg hsmall, if_neg (by omega)]

theorem le_significand {b : Nat} (h : scale b ≠ 0) : 2 ^ 52 ≤ significand b := by
  unfold scale at h
  unfold significand
  rw [if_neg (by omega)]
  exact Nat.le_add_right _ _

/-! ### Products and quotients -/

variable {x y : Float}

theorem units_eq_significand (x : Float) :
    units x = significand (size x) * 2 ^ scale (size x) := by
  rw [units_eq_size, unitsOfBits_eq_significand]

theorem signOf_mul (negative negative' : Bool) :
    signOf negative * signOf negative' = signOf (negative != negative') := by
  cases negative <;> cases negative' <;> rfl

theorem signOf_div (negative negative' : Bool) :
    signOf negative / signOf negative' = signOf (negative != negative') := by
  cases negative <;> cases negative' <;> rfl

theorem toBits_pack_zero (negative : Bool) (den : Nat) :
    UInt64.ofBitVec (pack Format.binary64 (.zero (signOf negative))) =
      (nearest negative 0 den).toBits := by
  rw [nearest, nearestBits_zero]
  exact toBits_pack_unpacked negative 0

/-- A product of significands is not too short to be rounded, unless it is below one unit. -/
theorem toBits_pack_product (negative : Bool) {m m' i j : Nat} (hm : 0 < m) (hm' : 0 < m')
    (hi : i ≠ 0 → 2 ^ 52 ≤ m) (hj : j ≠ 0 → 2 ^ 52 ≤ m') :
    UInt64.ofBitVec (pack Format.binary64 (roundWithAccuracy Format.binary64 (signOf negative)
      (m * m') (((i : Int) - 1074) + ((j : Int) - 1074)) .exact)) =
      (nearest negative (m * 2 ^ i * (m' * 2 ^ j)) (unitsOfOne * unitsOfOne)).toBits := by
  have hunits := Nat.mul_pos unitsOfOne_pos unitsOfOne_pos
  obtain ⟨u, hu⟩ : ∃ u, u = 1074 := ⟨_, rfl⟩
  obtain ⟨s, hs⟩ : ∃ s, s = placesLost (m * 2 ^ i * (m' * 2 ^ j) * unitsOfOne)
    (unitsOfOne * unitsOfOne) := ⟨_, rfl⟩
  have hroom : i + j - u ≤ s := by
    by_cases hij : i + j ≤ u
    · omega
    · have hfull : 2 ^ 52 ≤ m * m' := by
        rcases Nat.eq_zero_or_pos i with rfl | hpos
        · exact (hj (by omega)).trans (Nat.le_mul_of_pos_left m' hm)
        · exact (hi (by omega)).trans (Nat.le_mul_of_pos_right m hm')
      rw [hs]
      apply le_placesLost hunits
      calc unitsOfOne * unitsOfOne * 2 ^ (52 + (i + j - u))
          = unitsOfOne * (2 ^ 52 * (2 ^ u * 2 ^ (i + j - u))) := by
            rw [unitsOfOne_eq hu]
            ring
        _ = unitsOfOne * (2 ^ 52 * 2 ^ (i + j)) := by
            rw [← Nat.pow_add 2 u, show u + (i + j - u) = i + j by omega]
        _ ≤ unitsOfOne * (m * m' * 2 ^ (i + j)) :=
            Nat.mul_le_mul_left _ (Nat.mul_le_mul_right _ hfull)
        _ = m * 2 ^ i * (m' * 2 ^ j) * unitsOfOne := by ring
  obtain ⟨k, hk⟩ : ∃ k, i + j + k = s + u := ⟨s + u - (i + j), by omega⟩
  have hround := toBits_pack_roundWithAccuracy (a := m * m') (b := 1) (k := k)
    (e := (i : Int) - 1074 + ((j : Int) - 1074)) negative Nat.one_pos hunits hs (by omega) (by
      rw [unitsOfOne_eq hu]
      calc m * m' * 2 ^ s * (2 ^ u * 2 ^ u) = m * m' * 2 ^ u * 2 ^ (s + u) := by ring
        _ = m * 2 ^ i * (m' * 2 ^ j) * 2 ^ u * (1 * 2 ^ k) := by
          rw [← hk]
          ring)
  rwa [Nat.div_one, Nat.mod_one] at hround

/-- A quotient of significands has the binary digits that are needed to round it. -/
theorem toBits_pack_quotient (negative : Bool) {m m' i j : Nat} (hm : 0 < m) (hm' : 0 < m') :
    UInt64.ofBitVec (pack Format.binary64 (roundWithAccuracy Format.binary64 (signOf negative)
      (divCore Format.binary64 m ((i : Int) - 1074) m' ((j : Int) - 1074)).1
      (divCore Format.binary64 m ((i : Int) - 1074) m' ((j : Int) - 1074)).2.1
      (divCore Format.binary64 m ((i : Int) - 1074) m' ((j : Int) - 1074)).2.2)) =
      (nearest negative (m * 2 ^ i) (m' * 2 ^ j)).toBits := by
  have hden : 0 < m' * 2 ^ j := Nat.mul_pos hm' (Nat.two_pow_pos j)
  obtain ⟨u, hu⟩ : ∃ u, u = 1074 := ⟨_, rfl⟩
  obtain ⟨s, hs⟩ : ∃ s, s = placesLost (m * 2 ^ i * unitsOfOne) (m' * 2 ^ j) := ⟨_, rfl⟩
  have hroom : m.log2 + i + u - (m'.log2 + j + 53) ≤ s := by
    by_cases hlong : m'.log2 + j + 53 ≤ m.log2 + i + u
    · obtain ⟨t, ht⟩ := Nat.exists_eq_add_of_le hlong
      have hlow : 2 ^ m.log2 ≤ m := Nat.log2_self_le (Nat.ne_of_gt hm)
      have hhigh : m' ≤ 2 ^ (m'.log2 + 1) := Nat.lt_log2_self.le
      rw [ht, Nat.add_sub_cancel_left, hs]
      apply le_placesLost hden
      calc m' * 2 ^ j * 2 ^ (52 + t) ≤ 2 ^ (m'.log2 + 1) * 2 ^ j * 2 ^ (52 + t) :=
            Nat.mul_le_mul_right _ (Nat.mul_le_mul_right _ hhigh)
        _ = 2 ^ (m'.log2 + j + 53 + t) := by ring
        _ = 2 ^ m.log2 * 2 ^ i * 2 ^ u := by
          rw [← ht]
          ring
        _ ≤ m * 2 ^ i * unitsOfOne := by
          rw [unitsOfOne_eq hu]
          exact Nat.mul_le_mul_right _ (Nat.mul_le_mul_right _ hlow)
    · omega
  unfold divCore
  simp only [Nat.shiftLeft_eq]
  generalize htarget : min ((i : Int) - 1074 - ((j : Int) - 1074))
    (Format.binary64.targetExponent _) = target
  have hle : target ≤ i - j ∧ target ≤ (s : Int) - 1074 := by
    change min _ (max ((m.log2 : Int) + 1 + (i - 1074) - (m'.log2 + 1 + (j - 1074)) - 53) (-1074)) =
      target at htarget
    omega
  obtain ⟨n, hn⟩ : ∃ n : Nat, target + n = i - j := ⟨(i - j - target).toNat, by omega⟩
  obtain ⟨k, hk⟩ : ∃ k : Nat, target + k = (s : Int) - 1074 :=
    ⟨((s : Int) - 1074 - target).toNat, by omega⟩
  have hshift : ((i : Int) - 1074 - ((j : Int) - 1074) - target).toNat = n := by omega
  have hexponents : n + s + j = i + u + k := by omega
  rw [hshift]
  apply toBits_pack_roundWithAccuracy negative hm' hden hs hk
  rw [unitsOfOne_eq hu]
  calc m * 2 ^ n * 2 ^ s * (m' * 2 ^ j) = m * m' * 2 ^ (n + s + j) := by ring
    _ = m * 2 ^ i * 2 ^ u * (m' * 2 ^ k) := by
      rw [hexponents]
      ring

section
variable {u v : UnpackedFloat}

theorem toBits_mul (hx : x.toModel.unpack = u) (hy : y.toModel.unpack = v) : (x * y).toBits =
    UInt64.ofBitVec (pack Format.binary64 (UnpackedFloat.mul Format.binary64 u v)) := by
  subst hx hy
  rfl

theorem toBits_div (hx : x.toModel.unpack = u) (hy : y.toModel.unpack = v) : (x / y).toBits =
    UInt64.ofBitVec (pack Format.binary64 (UnpackedFloat.div Format.binary64 u v)) := by
  subst hx hy
  rfl

end

/-- The product of two finite doubles is the double nearest to that of their values. -/
theorem mul_eq (hx : x.isFinite = true) (hy : y.isFinite = true) :
    x * y = nearest (isNegative x != isNegative y) (units x * units y)
      (unitsOfOne * unitsOfOne) := by
  apply Float.toBits_inj.mp
  rw [toBits_mul (unpack_eq hx) (unpack_eq hy), units_eq_significand x, units_eq_significand y]
  generalize isNegative x = negative, isNegative y = negative', size x = b, size y = b'
  unfold unpacked
  by_cases hb : significand b = 0
  · rw [dif_pos hb, hb, Nat.zero_mul, Nat.zero_mul, ← toBits_pack_zero, ← signOf_mul]
    split <;> rfl
  · by_cases hb' : significand b' = 0
    · rw [dif_neg hb, dif_pos hb', hb', Nat.zero_mul, Nat.mul_zero, ← toBits_pack_zero,
        ← signOf_mul]
      rfl
    · rw [dif_neg hb, dif_neg hb', ← toBits_pack_product _ (Nat.pos_of_ne_zero hb)
        (Nat.pos_of_ne_zero hb') le_significand le_significand, ← exponent_eq_scale,
        ← exponent_eq_scale, ← signOf_mul]
      rfl

/-- The quotient of a finite double by another that is not zero is the double nearest to that of
their values. -/
theorem div_eq (hx : x.isFinite = true) (hy : y.isFinite = true) (hzero : size y ≠ 0) :
    x / y = nearest (isNegative x != isNegative y) (units x) (units y) := by
  apply Float.toBits_inj.mp
  have hb' := mt significand_eq_zero.mp hzero
  rw [toBits_div (unpack_eq hx) (unpack_eq hy), units_eq_significand x, units_eq_significand y]
  generalize isNegative x = negative, isNegative y = negative', size x = b, size y = b' at hb' ⊢
  unfold unpacked
  rw [dif_neg hb']
  by_cases hb : significand b = 0
  · rw [dif_pos hb, hb, Nat.zero_mul, ← toBits_pack_zero, ← signOf_div]
    rfl
  · rw [dif_neg hb, ← toBits_pack_quotient _ (Nat.pos_of_ne_zero hb) (Nat.pos_of_ne_zero hb'),
      ← exponent_eq_scale, ← exponent_eq_scale, ← signOf_div]
    rfl

theorem units_ofSignBits {negative : Bool} {b : Nat} (hb : b ≤ infinityBits) :
    units (ofSignBits negative b) = unitsOfBits b := by
  rw [units_eq_size, size_ofSignBits hb]

section
variable {b c : Nat}

theorem mul_ofSignBits (hx : x.isFinite = true) (hb : b < infinityBits) :
    x * ofSignBits false b =
      nearest (isNegative x) (units x * unitsOfBits b) (unitsOfOne * unitsOfOne) := by
  rw [mul_eq hx (isFinite_ofSignBits hb), isNegative_ofSignBits hb.le, units_ofSignBits hb.le,
    Bool.bne_false]

theorem div_ofSignBits (hx : x.isFinite = true) (hb : b < infinityBits) (hpos : 0 < b) :
    x / ofSignBits false b = nearest (isNegative x) (units x) (unitsOfBits b) := by
  have hne : size (ofSignBits false b) ≠ 0 := by
    rw [size_ofSignBits hb.le]
    exact Nat.ne_of_gt hpos
  rw [div_eq hx (isFinite_ofSignBits hb) hne, isNegative_ofSignBits hb.le, units_ofSignBits hb.le,
    Bool.bne_false]

/-- A product that is the value of a double is that double. -/
theorem mul_ofSignBits_of_units (hx : x.isFinite = true) (hb : b < infinityBits)
    (hc : c < infinityBits) (h : units x * unitsOfBits b = unitsOfBits c * unitsOfOne) :
    x * ofSignBits false b = ofSignBits (isNegative x) c := by
  rw [mul_ofSignBits hx hb, nearest,
    nearestBits_of_units (Nat.mul_pos unitsOfOne_pos unitsOfOne_pos) hc.le]
  rw [h, Nat.mul_assoc]

/-- A quotient that is the value of a double is that double. -/
theorem div_ofSignBits_of_units (hx : x.isFinite = true) (hb : b < infinityBits) (hpos : 0 < b)
    (hc : c < infinityBits) (h : units x * unitsOfOne = unitsOfBits c * unitsOfBits b) :
    x / ofSignBits false b = ofSignBits (isNegative x) c := by
  have hunits : 0 < unitsOfBits b := unitsOfBits_strictMono hpos
  rw [div_ofSignBits hx hb hpos, nearest, nearestBits_of_units hunits hc.le h]

end

/-- Hundredths of whole numbers below 2⁵³. -/
theorem isFinite_ofInt_div {i : Int} (h : i.natAbs < 2 ^ 53) : (ofInt i / 100).isFinite = true := by
  obtain ⟨hwhole, habs, -⟩ := ofInt_of_lt h
  have hhundred : unitsOfOne ≤ units 100 := by
    have hbits : (1023 + 0) * 2 ^ 52 ≤ size 100 := by decide
    have hunits := unitsOfBits_strictMono.monotone hbits
    rwa [unitsOfBits_two_pow, Nat.pow_zero, Nat.one_mul, ← units_eq_size] at hunits
  have hbits : nearestBits (units (ofInt i)) (units 100) ≤ (1023 + 53) * 2 ^ 52 := by
    apply nearestBits_le (unitsOfOne_pos.trans_le hhundred) (by decide)
    rw [unitsOfBits_two_pow, units_of_isWhole hwhole, habs]
    exact Nat.mul_le_mul (Nat.mul_le_mul_right _ h.le) hhundred
  rw [div_eq (isWhole_iff.mp hwhole).1 (by decide) (by decide)]
  exact isFinite_ofSignBits (lt_of_le_of_lt hbits (by decide))

/-! ### Infinity -/

/-- Positive infinity. -/
def infinity : Float := ofSignBits false infinityBits

theorem unpack_infinity : infinity.toModel.unpack = .infinity .positive := by
  rfl

theorem isFinite_mul_infinity (hx : x.isFinite = true) : (x * infinity).isFinite = false := by
  show (unpack Format.binary64 (pack Format.binary64
    (UnpackedFloat.mul Format.binary64 x.toModel.unpack infinity.toModel.unpack))).isFinite = false
  rw [unpack_eq hx, unpack_infinity]
  generalize isNegative x = negative
  unfold unpacked
  split
  · show (unpack Format.binary64 (pack Format.binary64 .notANumber)).isFinite = false
    decide
  · show (unpack Format.binary64 (pack Format.binary64
      (.infinity (signOf negative * .positive)))).isFinite = false
    cases negative with
    | false => decide
    | true => decide

/-- What is infinite or no number, over infinity. -/
theorem isNaN_div_infinity (hx : x.isFinite = false) : (x / infinity).isNaN = true := by
  have hnan : (unpack Format.binary64 (pack Format.binary64 .notANumber)).isNaN = true := by
    decide
  show (unpack Format.binary64 (pack Format.binary64
    (UnpackedFloat.div Format.binary64 x.toModel.unpack infinity.toModel.unpack))).isNaN = true
  have hu : x.toModel.unpack.isFinite = false := hx
  rw [unpack_infinity]
  cases hunpack : x.toModel.unpack with
  | notANumber => exact hnan
  | infinity s => exact hnan
  | zero s =>
    rw [hunpack] at hu
    cases hu
  | finite s m e hm =>
    rw [hunpack] at hu
    cases hu

end TableImport.Binary64
