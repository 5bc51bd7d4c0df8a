import TableImport.Proofs.Number.Nearest

/-! Doubles compared by their sizes in units, and doubles with their sign changed. -/
namespace TableImport.Binary64
open Float.Model (Format UnpackedFloat)
open Float.Model.UnpackedFloat (Sign isNaNBits pack_unpack pack_unpack_of_valid unpack
  unpackExponent unpackMantissa unpackSign)

/-! ### Sizes -/

/-- The bits of a double without that of its sign. -/
def size (x : Float) : Nat := x.toBits.toNat % 2 ^ 63

theorem units_eq_size (x : Float) : units x = unitsOfBits (size x) := rfl

/-- Each size is larger in units than the one before. -/
theorem unitsOfBits_strictMono : StrictMono unitsOfBits := by
  apply strictMono_nat_of_lt_succ
  intro b
  unfold unitsOfBits
  by_cases hsmall : b + 1 < 2 ^ 52
  · rw [if_pos (by omega), if_pos hsmall]
    omega
  · rw [if_neg hsmall]
    by_cases hlast : b + 1 = 2 ^ 52
    · rw [if_pos (by omega), hlast]
      norm_num
      omega
    · rw [if_neg (by omega)]
      by_cases hcarry : (b + 1) % 2 ^ 52 = 0
      · -- The significand starts anew, under an exponent that is larger by one.
        have hfraction : b % 2 ^ 52 = 2 ^ 52 - 1 := by omega
        have hexponent : (b + 1) / 2 ^ 52 - 1 = b / 2 ^ 52 - 1 + 1 := by omega
        have hscale : ∀ p : Nat, 0 < p →
            (2 ^ 52 + (2 ^ 52 - 1)) * p < (2 ^ 52 + 0) * (p * 2) := by
          intro p hp
          omega
        rw [hcarry, hfraction, hexponent, Nat.pow_succ]
        exact hscale _ (Nat.two_pow_pos _)
      · have hfraction : (b + 1) % 2 ^ 52 = b % 2 ^ 52 + 1 := by omega
        have hexponent : (b + 1) / 2 ^ 52 = b / 2 ^ 52 := by omega
        rw [hfraction, hexponent]
        exact Nat.mul_lt_mul_of_pos_right (by omega) (Nat.two_pow_pos _)

/-- The significand of doubles with these size bits. -/
def significand (b : Nat) : Nat := if b / 2 ^ 52 = 0 then b % 2 ^ 52 else 2 ^ 52 + b % 2 ^ 52

/-- The exponent of doubles with these size bits. -/
def exponent (b : Nat) : Int := (max (b / 2 ^ 52) 1 : Nat) - 1075

theorem significand_eq_zero {b : Nat} : significand b = 0 ↔ b = 0 := by
  unfold significand
  split <;> omega

theorem exponent_significand_of_lt {a b : Nat} (h : a < b) :
    exponent a < exponent b ∨ exponent a = exponent b ∧ significand a < significand b := by
  unfold exponent significand
  have hdiv : a / 2 ^ 52 ≤ b / 2 ^ 52 := Nat.div_le_div_right h.le
  split <;> split <;> omega

theorem compare_exponent_significand (a b : Nat) :
    (compare (exponent a) (exponent b)).then (compare (significand a) (significand b)) =
      compare a b := by
  rcases Nat.lt_trichotomy a b with h | rfl | h
  · rw [compare_lt_iff_lt.mpr h, Ordering.then_eq_lt, compare_lt_iff_lt, compare_eq_iff_eq,
      compare_lt_iff_lt]
    exact exponent_significand_of_lt h
  · rw [compare_eq_iff_eq.mpr rfl, compare_eq_iff_eq.mpr rfl, compare_eq_iff_eq.mpr rfl]
    rfl
  · rw [compare_gt_iff_gt.mpr h, Ordering.then_eq_gt, compare_gt_iff_gt, compare_eq_iff_eq,
      compare_gt_iff_gt]
    exact (exponent_significand_of_lt h).imp_right (And.imp_left Eq.symm)

/-! ### Words taken apart -/

theorem toNat_unpackMantissa (w : BitVec Format.binary64.numBits) :
    (unpackMantissa w).toNat = w.toNat % 2 ^ 52 := by
  simp [unpackMantissa, BitVec.extractLsb_toNat]

theorem toNat_unpackSign (w : BitVec Format.binary64.numBits) :
    (unpackSign w).toNat = w.toNat / 2 ^ 63 % 2 := by
  simp [unpackSign, BitVec.extractLsb_toNat, Nat.shiftRight_eq_div_pow]

theorem unpackExponent_ne_ones {w : BitVec Format.binary64.numBits}
    (h : w.toNat % 2 ^ 63 < infinityBits) : unpackExponent w ≠ -1#11 := by
  intro hones
  have hfield := congrArg BitVec.toNat hones
  rw [toNat_unpackExponent, show (-1#11 : BitVec 11).toNat = 2047 from rfl] at hfield
  unfold infinityBits at h
  omega

/-- The double of a sign and size bits, taken apart. -/
def unpacked (s : Sign) (b : Nat) : UnpackedFloat :=
  if h : significand b = 0 then .zero s
  else .finite s (significand b) (exponent b) (Nat.pos_of_ne_zero h)

theorem abs_unpacked (s : Sign) (b : Nat) : (unpacked s b).abs = unpacked .positive b := by
  unfold unpacked
  split <;> rfl

theorem compare_unpacked (a b : Nat) :
    (unpacked .positive a).compare (unpacked .positive b) = some (compare a b) := by
  unfold unpacked
  by_cases ha : a = 0
  · rw [dif_pos (significand_eq_zero.mpr ha)]
    by_cases hb : b = 0
    · rw [dif_pos (significand_eq_zero.mpr hb), compare_eq_iff_eq.mpr (ha.trans hb.symm)]
      rfl
    · rw [dif_neg (mt significand_eq_zero.mp hb), compare_lt_iff_lt.mpr (by omega)]
      rfl
  · rw [dif_neg (mt significand_eq_zero.mp ha)]
    by_cases hb : b = 0
    · rw [dif_pos (significand_eq_zero.mpr hb), compare_gt_iff_gt.mpr (by omega)]
      rfl
    · rw [dif_neg (mt significand_eq_zero.mp hb), ← compare_exponent_significand]
      rfl

theorem unpack_eq_unpacked {w : BitVec Format.binary64.numBits}
    (h : w.toNat % 2 ^ 63 < infinityBits) :
    unpack Format.binary64 w = unpacked (Sign.ofBitVec (unpackSign w)) (w.toNat % 2 ^ 63) := by
  have hnot := unpackExponent_ne_ones h
  have hexponent : (unpackExponent w).toNat = w.toNat % 2 ^ 63 / 2 ^ 52 := by
    rw [toNat_unpackExponent]
    omega
  have hmantissa : (unpackMantissa w).toNat = w.toNat % 2 ^ 63 % 2 ^ 52 := by
    rw [toNat_unpackMantissa]
    omega
  generalize w.toNat % 2 ^ 63 = b at hexponent hmantissa ⊢
  unfold unpack unpacked
  simp only [if_neg hnot]
  by_cases hzero : unpackExponent w = 0#11
  · have hfield : b / 2 ^ 52 = 0 := by
      rw [← hexponent, hzero]
      rfl
    have hsignificand : significand b = (unpackMantissa w).toNat := by
      rw [significand, if_pos hfield, hmantissa]
    rw [if_pos hzero]
    by_cases hm : unpackMantissa w = 0#52
    · rw [dif_pos hm, dif_pos (by rw [hsignificand, hm]; rfl)]
    · have hne : significand b ≠ 0 := by
        rw [hsignificand]
        exact fun h0 => hm (BitVec.eq_of_toNat_eq h0)
      rw [dif_neg hm, dif_neg hne]
      simp only [UnpackedFloat.finite.injEq, hsignificand, true_and, hexponent, exponent, hfield]
      decide
  · have hfield : b / 2 ^ 52 ≠ 0 := by
      rw [← hexponent]
      exact fun h0 => hzero (BitVec.eq_of_toNat_eq h0)
    have hsignificand : (1#1 ++ unpackMantissa w).toNat = significand b := by
      rw [significand, if_neg hfield, ← hmantissa, BitVec.toNat_append,
        ← Nat.shiftLeft_add_eq_or_of_lt (unpackMantissa w).isLt]
      rfl
    have hne : significand b ≠ 0 := by
      rw [significand, if_neg hfield]
      omega
    rw [if_neg hzero, dif_neg hne]
    simp only [UnpackedFloat.finite.injEq, hsignificand, true_and, hexponent, exponent]
    rw [max_eq_left (by omega)]
    rfl

theorem isFinite_iff {x : Float} : x.isFinite = true ↔ size x < infinityBits := by
  refine ⟨lt_infinityBits_of_isFinite, fun h => ?_⟩
  show (unpack Format.binary64 (word x)).isFinite = true
  rw [unpack_eq_unpacked (w := word x) h]
  unfold unpacked
  split <;> rfl

/-! ### Doubles of given bits -/

/-- The bits of a double that is finite or infinite are those it is made of. -/
theorem toBits_ofSignBits (negative : Bool) {b : Nat} (hb : b ≤ infinityBits) :
    (ofSignBits negative b).toBits.toNat = if negative then 2 ^ 63 + b else b := by
  have hlt : (if negative then 2 ^ 63 + b else b) < 2 ^ 64 := by
    unfold infinityBits at hb
    split <;> omega
  have hword : (UInt64.ofNat (if negative then 2 ^ 63 + b else b)).toNat =
      if negative then 2 ^ 63 + b else b := by
    rw [UInt64.toNat_ofNat']
    exact Nat.mod_eq_of_lt hlt
  have hsize : (UInt64.ofNat (if negative then 2 ^ 63 + b else b)).toNat % 2 ^ 63 = b := by
    unfold infinityBits at hb
    rw [hword]
    split <;> omega
  rw [ofSignBits]
  generalize UInt64.ofNat (if negative then 2 ^ 63 + b else b) = bits at hword hsize
  have hnan : @isNaNBits Format.binary64 bits.toBitVec = false := by
    unfold isNaNBits
    rw [decide_eq_false_iff_not]
    rintro ⟨hones, hmantissa⟩
    have hfield := congrArg BitVec.toNat hones
    rw [toNat_unpackExponent, show (-1#11 : BitVec 11).toNat = 2047 from rfl] at hfield
    apply hmantissa
    apply BitVec.eq_of_toNat_eq
    rw [toNat_unpackMantissa]
    change bits.toNat / 2 ^ 52 % 2 ^ 11 = 2047 at hfield
    change bits.toNat % 2 ^ 52 = 0
    unfold infinityBits at hb
    omega
  have hpack := @pack_unpack Format.binary64 bits.toBitVec
  rw [hnan, if_neg Bool.false_ne_true] at hpack
  show (UInt64.ofBitVec _).toNat = _
  rw [hpack, ← hword]

section
variable {negative : Bool} {b : Nat}

theorem size_ofSignBits (hb : b ≤ infinityBits) : size (ofSignBits negative b) = b := by
  rw [size, toBits_ofSignBits negative hb]
  unfold infinityBits at hb
  split <;> omega

theorem isNegative_ofSignBits (hb : b ≤ infinityBits) :
    isNegative (ofSignBits negative b) = negative := by
  rw [isNegative, toBits_ofSignBits negative hb]
  unfold infinityBits at hb
  cases negative with
  | true => simp
  | false => simpa using by omega

theorem isFinite_ofSignBits (hb : b < infinityBits) : (ofSignBits negative b).isFinite = true := by
  rw [isFinite_iff, size_ofSignBits hb.le]
  exact hb

end

/-! ### Signs -/

variable {x y : Float}

/-- The sign of a double as the model of doubles has it. -/
def signOf (negative : Bool) : Sign := if negative then .negative else .positive

theorem unpackSign_word (x : Float) : unpackSign (word x) = if isNegative x then 1#1 else 0#1 := by
  have hlt : x.toBits.toNat < 2 ^ 64 := x.toBits.toNat_lt
  apply BitVec.eq_of_toNat_eq
  rw [toNat_unpackSign, toNat_word]
  unfold isNegative
  by_cases hneg : 2 ^ 63 ≤ x.toBits.toNat
  · rw [decide_eq_true hneg, if_pos rfl]
    show _ = 1
    omega
  · rw [decide_eq_false hneg, if_neg Bool.false_ne_true]
    show _ = 0
    omega

theorem unpack_eq (hx : x.isFinite = true) :
    x.toModel.unpack = unpacked (signOf (isNegative x)) (size x) := by
  have hunpack := unpack_eq_unpacked (w := word x) (lt_infinityBits_of_isFinite hx)
  have hsign : Sign.ofBitVec (if isNegative x then 1#1 else 0#1) = signOf (isNegative x) := by
    cases isNegative x <;> rfl
  rw [unpackSign_word, hsign] at hunpack
  exact hunpack

theorem unpack_ofSignBits {negative : Bool} {b : Nat} (hb : b < infinityBits) :
    (ofSignBits negative b).toModel.unpack = unpacked (signOf negative) b := by
  rw [unpack_eq (isFinite_ofSignBits hb), isNegative_ofSignBits hb.le, size_ofSignBits hb.le]

theorem toBits_pack (x : Float) :
    UInt64.ofBitVec (UnpackedFloat.pack Format.binary64 x.toModel.unpack) = x.toBits :=
  congrArg UInt64.ofBitVec (pack_unpack_of_valid x.toModel.valid)

theorem abs_eq (hx : x.isFinite = true) : x.abs = ofSignBits false (size x) := by
  have hb : size x < infinityBits := lt_infinityBits_of_isFinite hx
  apply Float.toBits_inj.mp
  rw [← toBits_pack (ofSignBits false (size x)), unpack_ofSignBits hb]
  show UInt64.ofBitVec (UnpackedFloat.pack Format.binary64 x.toModel.unpack.abs) = _
  rw [unpack_eq hx, abs_unpacked]
  rfl

theorem neg_unpacked (negative : Bool) (b : Nat) :
    (unpacked (signOf negative) b).neg = unpacked (signOf !negative) b := by
  unfold unpacked
  split <;> cases negative <;> rfl

theorem neg_eq (hx : x.isFinite = true) : -x = ofSignBits (!isNegative x) (size x) := by
  have hb : size x < infinityBits := lt_infinityBits_of_isFinite hx
  apply Float.toBits_inj.mp
  rw [← toBits_pack (ofSignBits (!isNegative x) (size x)), unpack_ofSignBits hb]
  show UInt64.ofBitVec (UnpackedFloat.pack Format.binary64 x.toModel.unpack.neg) = _
  rw [unpack_eq hx, neg_unpacked]

theorem isFinite_neg (hx : x.isFinite = true) : (-x).isFinite = true := by
  rw [neg_eq hx]
  exact isFinite_ofSignBits (lt_infinityBits_of_isFinite hx)

theorem isNegative_neg (hx : x.isFinite = true) : isNegative (-x) = !isNegative x := by
  rw [neg_eq hx]
  exact isNegative_ofSignBits (lt_infinityBits_of_isFinite hx).le

/-- A finite double is negated twice to itself. -/
theorem neg_neg (hx : x.isFinite = true) : -(-x) = x := by
  have hsize : size (-x) = size x := by
    rw [neg_eq hx]
    exact size_ofSignBits (lt_infinityBits_of_isFinite hx).le
  rw [neg_eq (isFinite_neg hx), isNegative_neg hx, hsize, Bool.not_not]
  exact ofSignBits_size x

/-! ### Comparisons -/

theorem unpack_of_nonneg (hx : x.isFinite = true) (hsign : isNegative x = false) :
    x.toModel.unpack = unpacked .positive (size x) := by
  rw [unpack_eq hx, hsign]
  rfl

theorem compare_of_nonneg (hx : x.isFinite = true) (hxsign : isNegative x = false)
    (hy : y.isFinite = true) (hysign : isNegative y = false) :
    x.toModel.unpack.compare y.toModel.unpack = some (compare (size x) (size y)) := by
  rw [unpack_of_nonneg hx hxsign, unpack_of_nonneg hy hysign, compare_unpacked]

/-- The size of a double compared with a bound. -/
theorem abs_lt_iff (hx : x.isFinite = true) (hy : y.isFinite = true)
    (hsign : isNegative y = false) : x.abs < y ↔ units x < units y := by
  have hb : size x < infinityBits := lt_infinityBits_of_isFinite hx
  have hcompare := compare_of_nonneg (isFinite_ofSignBits hb) (isNegative_ofSignBits hb.le) hy hsign
  rw [size_ofSignBits hb.le] at hcompare
  rw [abs_eq hx, units_eq_size, units_eq_size, unitsOfBits_strictMono.lt_iff_lt]
  have hlt : ofSignBits false (size x) < y ↔
      UnpackedFloat.lt (ofSignBits false (size x)).toModel.unpack y.toModel.unpack = true :=
    decide_eq_true_iff
  rw [hlt, UnpackedFloat.lt, hcompare, beq_iff_eq, Option.some.injEq, compare_lt_iff_lt]

theorem le_abs_iff (hx : x.isFinite = true) (hy : y.isFinite = true)
    (hsign : isNegative y = false) : y ≤ x.abs ↔ units y ≤ units x := by
  have hb : size x < infinityBits := lt_infinityBits_of_isFinite hx
  have hcompare := compare_of_nonneg hy hsign (isFinite_ofSignBits hb) (isNegative_ofSignBits hb.le)
  rw [size_ofSignBits hb.le] at hcompare
  rw [abs_eq hx, units_eq_size, units_eq_size, unitsOfBits_strictMono.le_iff_le]
  have hle : y ≤ ofSignBits false (size x) ↔
      UnpackedFloat.le y.toModel.unpack (ofSignBits false (size x)).toModel.unpack = true :=
    decide_eq_true_iff
  rw [hle, UnpackedFloat.le, hcompare, Option.any_some, ← compare_le_iff_le,
    Ordering.isLE_iff_ne_gt]

end TableImport.Binary64
