import TableImport.Proofs.Number.Words

/-! The double nearest to a quotient that is one, and the shortest decimals, which read back. -/
namespace TableImport
namespace Binary64

/-- The size in units that the size bits of a finite double stand for. -/
def unitsOfBits (b : Nat) : Nat :=
  if b < 2 ^ 52 then b else (2 ^ 52 + b % 2 ^ 52) * 2 ^ (b / 2 ^ 52 - 1)

theorem units_eq (x : Float) : units x = unitsOfBits (x.toBits.toNat % 2 ^ 63) := rfl

/-! ### The nearest whole number -/

section
variable {a b c d : Nat}

theorem divNearestEven_mul_right (hc : 0 < c) :
    divNearestEven (a * c) (b * c) = divNearestEven a b := by
  have hlt : 2 * (a % b * c) < b * c ↔ 2 * (a % b) < b := by
    rw [← Nat.mul_assoc, Nat.mul_lt_mul_right hc]
  have heq : 2 * (a % b * c) = b * c ↔ 2 * (a % b) = b := by
    rw [← Nat.mul_assoc, Nat.mul_left_inj (Nat.ne_of_gt hc)]
  unfold divNearestEven
  simp only [Nat.mul_div_mul_right a b hc, Nat.mul_mod_mul_right, hlt, heq]

theorem divNearestEven_le_divNearestEven (b : Nat) (h : a ≤ c) :
    divNearestEven a b ≤ divNearestEven c b := by
  have hq : a / b ≤ c / b := Nat.div_le_div_right h
  have ha := Nat.div_add_mod a b
  have hc := Nat.div_add_mod c b
  unfold divNearestEven
  simp only
  rcases Nat.lt_or_eq_of_le hq with hlt | heq
  · split <;> split <;> omega
  · rw [heq] at ha
    have hr : a % b ≤ c % b := by omega
    rw [heq]
    split <;> split <;> omega

/-- A quotient that is whole is its own nearest whole number. -/
theorem divNearestEven_mul (m : Nat) {d : Nat} (hd : 0 < d) : divNearestEven (m * d) d = m := by
  have h := divNearestEven_mul_right (a := m) (b := 1) hd
  rwa [Nat.one_mul, divNearestEven_one] at h

/-- A larger quotient has no smaller nearest whole number. -/
theorem divNearestEven_mono (hb : 0 < b) (hd : 0 < d) (h : a * d ≤ c * b) :
    divNearestEven a b ≤ divNearestEven c d := by
  rw [← divNearestEven_mul_right (a := a) hd, ← divNearestEven_mul_right (a := c) hb,
    Nat.mul_comm d b]
  exact divNearestEven_le_divNearestEven (b * d) h

theorem divNearestEven_congr (hb : 0 < b) (hd : 0 < d) (h : a * d = c * b) :
    divNearestEven a b = divNearestEven c d :=
  Nat.le_antisymm (divNearestEven_mono hb hd h.le) (divNearestEven_mono hd hb h.ge)

theorem divNearestEven_le (h : a ≤ c * b) (hb : 0 < b) : divNearestEven a b ≤ c := by
  have hmono := divNearestEven_mono (a := a) (c := c) hb Nat.one_pos (by rwa [Nat.mul_one])
  rwa [divNearestEven_one] at hmono

theorem le_divNearestEven_of_le (h : c * b ≤ a) (hb : 0 < b) : c ≤ divNearestEven a b := by
  have hmono := divNearestEven_mono (a := c) (c := a) Nat.one_pos hb (by rwa [Nat.mul_one])
  rwa [divNearestEven_one] at hmono

end

theorem two_mul_divNearestEven_le (a b : Nat) : 2 * (divNearestEven a b * b) ≤ 2 * a + b := by
  have hdiv := Nat.div_add_mod a b
  rw [Nat.mul_comm b] at hdiv
  unfold divNearestEven
  simp only
  split
  · omega
  · rw [Nat.add_mul, Nat.one_mul]
    omega

/-! ### The nearest double -/

theorem log2_normal (b : Nat) (k : Nat) : ((2 ^ 52 + b % 2 ^ 52) * 2 ^ k).log2 = 52 + k := by
  have hb : b % 2 ^ 52 < 2 ^ 52 := Nat.mod_lt b (Nat.two_pow_pos 52)
  have hpos : 0 < (2 ^ 52 + b % 2 ^ 52) * 2 ^ k := Nat.mul_pos (by omega) (Nat.two_pow_pos k)
  rw [Nat.log2_eq_iff (Nat.ne_of_gt hpos)]
  constructor
  · rw [Nat.pow_add]
    exact Nat.mul_le_mul_right _ (Nat.le_add_right _ _)
  · rw [show 52 + k + 1 = 53 + k by omega, Nat.pow_add]
    exact Nat.mul_lt_mul_of_pos_right (by omega) (Nat.two_pow_pos k)

theorem nearestBits_of_units {num den b : Nat} (hden : 0 < den) (hb : b ≤ infinityBits)
    (h : num * unitsOfOne = unitsOfBits b * den) : nearestBits num den = b := by
  unfold nearestBits
  simp only [h, Nat.mul_div_cancel _ hden]
  by_cases hsmall : b < 2 ^ 52
  · -- Subnormal doubles are the whole numbers of units themselves.
    have hlog : b.log2 - 52 = 0 := by
      by_cases hzero : b = 0
      · subst hzero
        rfl
      · have hlt := (Nat.log2_lt hzero).2 hsmall
        omega
    have hround : divNearestEven (b * den) (den * 2 ^ 0) = b := by
      rw [Nat.pow_zero, Nat.mul_one]
      exact divNearestEven_mul b hden
    simp only [unitsOfBits, if_pos hsmall, hlog, hround]
    omega
  · -- The cut leaves the significand with its leading bit, which carries into the exponent.
    have hunits : unitsOfBits b * den =
        (2 ^ 52 + b % 2 ^ 52) * (den * 2 ^ (b / 2 ^ 52 - 1)) := by
      simp only [unitsOfBits, if_neg hsmall]
      rw [Nat.mul_assoc, Nat.mul_comm (2 ^ (b / 2 ^ 52 - 1)) den]
    have hlog : (unitsOfBits b).log2 - 52 = b / 2 ^ 52 - 1 := by
      simp only [unitsOfBits, if_neg hsmall, log2_normal]
      omega
    rw [hlog, hunits, divNearestEven_mul _ (Nat.mul_pos hden (Nat.two_pow_pos _))]
    unfold infinityBits at hb ⊢
    omega

/-- Every digit of a double, with the point as far to the right as one unit needs it. -/
theorem nearestBits_decimal {b k : Nat} (hb : b < infinityBits) (hk : unitsOfOne = 2 ^ k) :
    nearestBits (unitsOfBits b * 5 ^ k) (10 ^ k) = b := by
  apply nearestBits_of_units (Nat.pow_pos (by decide)) hb.le
  rw [hk, Nat.mul_assoc, ← Nat.mul_pow]

theorem nearestBits_zero (den : Nat) : nearestBits 0 den = 0 := by
  have hround : ∀ d, divNearestEven 0 d = 0 := by
    intro d
    rcases Nat.eq_zero_or_pos d with rfl | hd
    · rfl
    · simpa using divNearestEven_mul 0 hd
  simp [nearestBits, hround]

/-! ### The places that are cut off -/

/-- The places that a quotient loses to a significand of 53 binary digits. -/
def placesLost (n d : Nat) : Nat := (n / d).log2 - 52

theorem lt_placesLost (n : Nat) {d : Nat} (hd : 0 < d) : n < d * 2 ^ (53 + placesLost n d) := by
  have hlog : n / d < 2 ^ (53 + placesLost n d) := by
    refine lt_of_lt_of_le Nat.lt_log2_self (Nat.pow_le_pow_right (by decide) ?_)
    unfold placesLost
    omega
  rwa [Nat.div_lt_iff_lt_mul hd, Nat.mul_comm] at hlog

theorem placesLost_le (n : Nat) {d : Nat} (hd : 0 < d) :
    placesLost n d = 0 ∨ d * 2 ^ (52 + placesLost n d) ≤ n := by
  rcases Nat.eq_zero_or_pos (placesLost n d) with hzero | hpos
  · exact .inl hzero
  · right
    have hlog : (n / d).log2 = 52 + placesLost n d := by
      unfold placesLost at hpos ⊢
      omega
    have hne : n / d ≠ 0 := by
      intro h
      rw [h] at hlog
      have hlogZero : Nat.log2 0 = 0 := rfl
      omega
    have hself := Nat.log2_self_le hne
    rw [hlog, Nat.le_div_iff_mul_le hd, Nat.mul_comm] at hself
    exact hself

theorem le_placesLost {n d t : Nat} (hd : 0 < d) (h : d * 2 ^ (52 + t) ≤ n) :
    t ≤ placesLost n d := by
  have hle : 2 ^ (52 + t) ≤ n / d := by
    rw [Nat.le_div_iff_mul_le hd, Nat.mul_comm]
    exact h
  have hlog := (Nat.le_log2 (Nat.ne_of_gt (lt_of_lt_of_le (Nat.two_pow_pos _) hle))).mpr hle
  unfold placesLost
  omega

theorem divNearestEven_placesLost_le (n : Nat) {d : Nat} (hd : 0 < d) :
    divNearestEven n (d * 2 ^ placesLost n d) ≤ 2 ^ 53 := by
  apply divNearestEven_le _ (Nat.mul_pos hd (Nat.two_pow_pos _))
  rw [Nat.mul_left_comm, ← Nat.pow_add]
  exact (lt_placesLost n hd).le

theorem le_divNearestEven_placesLost (n : Nat) {d : Nat} (hd : 0 < d) :
    placesLost n d = 0 ∨ 2 ^ 52 ≤ divNearestEven n (d * 2 ^ placesLost n d) := by
  refine (placesLost_le n hd).imp_right fun h => ?_
  apply le_divNearestEven_of_le _ (Nat.mul_pos hd (Nat.two_pow_pos _))
  rwa [Nat.mul_left_comm, ← Nat.pow_add]

theorem nearestBits_eq (num den : Nat) : nearestBits num den =
    min (placesLost (num * unitsOfOne) den * 2 ^ 52 + divNearestEven (num * unitsOfOne)
      (den * 2 ^ placesLost (num * unitsOfOne) den)) infinityBits := rfl

/-- A larger quotient has no smaller nearest double. -/
theorem nearestBits_mono {num den num' den' : Nat} (hden : 0 < den) (hden' : 0 < den')
    (h : num * den' ≤ num' * den) : nearestBits num den ≤ nearestBits num' den' := by
  have hunits : num * unitsOfOne * den' ≤ num' * unitsOfOne * den := by
    calc num * unitsOfOne * den' = num * den' * unitsOfOne := by ring
      _ ≤ num' * den * unitsOfOne := Nat.mul_le_mul_right _ h
      _ = num' * unitsOfOne * den := by ring
  rw [nearestBits_eq, nearestBits_eq]
  generalize num * unitsOfOne = n at hunits ⊢
  generalize num' * unitsOfOne = n' at hunits ⊢
  have hplaces : placesLost n den ≤ placesLost n' den' := by
    rcases placesLost_le n hden with hzero | hle
    · omega
    · apply le_placesLost hden'
      apply Nat.le_of_mul_le_mul_right _ hden
      calc den' * 2 ^ (52 + placesLost n den) * den
          = den * 2 ^ (52 + placesLost n den) * den' := by ring
        _ ≤ n * den' := Nat.mul_le_mul_right _ hle
        _ ≤ n' * den := hunits
  apply min_le_min_right
  rcases Nat.lt_or_eq_of_le hplaces with hlt | heq
  · -- The significands differ by a factor of two at most, the exponents by one at least.
    have hhigh := divNearestEven_placesLost_le n hden
    have hlow := (le_divNearestEven_placesLost n' hden').resolve_left (by omega)
    omega
  · rw [heq]
    apply Nat.add_le_add_left
    apply divNearestEven_mono
    · exact Nat.mul_pos hden (Nat.two_pow_pos _)
    · exact Nat.mul_pos hden' (Nat.two_pow_pos _)
    · rw [← Nat.mul_assoc, ← Nat.mul_assoc]
      exact Nat.mul_le_mul_right _ hunits

/-! ### Doubles of given bits and decimals -/

theorem ofSignBits_size (x : Float) :
    ofSignBits (isNegative x) (x.toBits.toNat % 2 ^ 63) = x := by
  have hlt : x.toBits.toNat < 2 ^ 64 := x.toBits.toNat_lt
  have hbits : (if isNegative x = true then 2 ^ 63 + x.toBits.toNat % 2 ^ 63
      else x.toBits.toNat % 2 ^ 63) = x.toBits.toNat := by
    by_cases hneg : 2 ^ 63 ≤ x.toBits.toNat
    · simp only [isNegative, hneg, decide_true, if_true]
      omega
    · simp only [isNegative, hneg, decide_false, Bool.false_eq_true, if_false]
      omega
  rw [ofSignBits, hbits, UInt64.ofNat_toNat, Float.ofBits_toBits]

end Binary64

namespace Scaled
open Binary64

theorem toFloat_neg (negative : Bool) (d n : Nat) :
    toFloat negative ⟨d, -(n : Int)⟩ = nearest negative d (10 ^ n) := by
  cases n with
  | zero => simp [toFloat, ratio]
  | succ n => rfl

theorem exact_toFloat {x : Float} (h : x.isFinite = true) :
    (exact x).toFloat (isNegative x) = x := by
  have hexact : exact x = ⟨units x * 5 ^ 1074, -((1074 : Nat) : Int)⟩ := rfl
  have hunit : unitsOfOne = 2 ^ 1074 := by rw [unitsOfOne]
  rw [hexact, toFloat_neg, nearest, units_eq,
    nearestBits_decimal (lt_infinityBits_of_isFinite h) hunit, ofSignBits_size]

/-- The decimal that is written for a finite double reads back. -/
theorem shortest_toFloat (tie : Tie) {x : Float} (h : x.isFinite = true) :
    (shortest tie x).toFloat (isNegative x) = x := by
  unfold shortest
  simp only
  cases hfound : (List.range 18).findSome? fun n : Nat => onGrid? tie x (pointOf x - n) with
  | none =>
    rw [Option.getD_none]
    exact exact_toFloat h
  | some s =>
    obtain ⟨n, -, hn⟩ := List.exists_of_findSome?_eq_some hfound
    have hback := readsBack_onGrid hn
    exact Float.toBits_inj.1 (eq_of_beq hback)

end Scaled
end TableImport
