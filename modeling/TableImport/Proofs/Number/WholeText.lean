import TableImport.Proofs.Number.PlainText
import TableImport.Proofs.Number.Whole

/-! Plain texts of doubles with a sign, and of whole numbers: below 2⁵³ these are written in their
own digits, with no point and no exponent, since no other whole number reads back to the double. -/
namespace TableImport

namespace Binary64

/-- The bits without that of the sign make up a double together with its sign. -/
theorem ofSignBits_eq_iff {x : Float} {b : Nat} (hb : b ≤ infinityBits) :
    ofSignBits (isNegative x) b = x ↔ b = size x := by
  constructor
  · intro h
    rw [← h, size_ofSignBits hb]
  · rintro rfl
    exact ofSignBits_size x

theorem beq_zero_iff {x : Float} : (x == 0) = true ↔ size x = 0 := by
  constructor
  · exact size_eq_zero_of_beq_zero
  · intro h
    have hx : ofSignBits (isNegative x) 0 = x := by rw [← h]; exact ofSignBits_size x
    rw [← hx]
    cases isNegative x <;> decide

theorem size_neg {x : Float} (hx : x.isFinite = true) : size (-x) = size x := by
  rw [neg_eq hx]
  exact size_ofSignBits (lt_infinityBits_of_isFinite hx).le

/-! ### Whole numbers -/

theorem unitsOfBits_nearestBits {n : Nat} (h : n < 2 ^ 53) :
    unitsOfBits (nearestBits n 1) = n * unitsOfOne := by
  obtain ⟨b, hb, hunits⟩ := exists_bits h
  rw [nearestBits_of_units Nat.one_pos hb.le (by rw [hunits, Nat.mul_one]), hunits]

/-- A whole number below 2⁵³ shares its double with no other whole number. -/
theorem nearestBits_eq_iff {m n : Nat} (hn : n < 2 ^ 53) :
    nearestBits m 1 = nearestBits n 1 ↔ m = n := by
  refine ⟨fun h => ?_, fun h => by rw [h]⟩
  have hsmall : m < 2 ^ 53 := by
    by_contra hlarge
    have hlow := two_pow_le_nearestBits (Nat.not_lt.mp hlarge)
    have hhigh : nearestBits n 1 < (1023 + 53) * 2 ^ 52 := by
      apply unitsOfBits_strictMono.lt_iff_lt.mp
      rw [unitsOfBits_nearestBits hn, unitsOfBits_two_pow]
      exact Nat.mul_lt_mul_of_pos_right hn unitsOfOne_pos
    omega
  apply Nat.mul_right_cancel unitsOfOne_pos
  rw [← unitsOfBits_nearestBits hsmall, h, unitsOfBits_nearestBits hn]

theorem units_ofInt {i : Int} (h : i.natAbs < 2 ^ 53) :
    units (ofInt i) = i.natAbs * unitsOfOne := by
  rw [units_eq_size, size_ofInt, unitsOfBits_nearestBits h]

end Binary64

namespace Scaled
open Binary64
variable {x y : Float} {s : Scaled} {e : Int}

/-- A decimal reads back to a double of its size, whatever the sign is. -/
theorem readsBack_iff : s.readsBack x = true ↔ nearestBits s.ratio.1 s.ratio.2 = size x := by
  have hb : nearestBits s.ratio.1 s.ratio.2 ≤ infinityBits := Nat.min_le_right _ _
  rw [readsBack, beq_iff_eq, Float.toBits_inj, toFloat, nearest, ofSignBits_eq_iff hb]

theorem onGrid?_congr (h : size x = size y) (tie : Tie) (e : Int) :
    onGrid? tie x e = onGrid? tie y e := by
  have hmeasured : measured x e = measured y e := by
    cases e <;> simp only [measured, units_eq_size, h]
  have hback : ∀ s : Scaled, s.readsBack x = s.readsBack y := by
    intro s
    rw [Bool.eq_iff_iff, readsBack_iff, readsBack_iff, h]
  unfold onGrid?
  rw [hmeasured]
  simp only [hback]

/-- The digits that are written depend on a double's size alone. -/
theorem shortest_congr (h : size x = size y) (tie : Tie) : shortest tie x = shortest tie y := by
  have hunits : units x = units y := by rw [units_eq_size, units_eq_size, h]
  have hpoint : pointOf x = pointOf y := by rw [pointOf, pointOf, hunits]
  have hexact : exact x = exact y := by rw [exact, exact, hunits]
  have hgrid : onGrid? tie x = onGrid? tie y := funext (onGrid?_congr h tie)
  rw [shortest, shortest, hpoint, hexact, hgrid]

theorem exponent_of_onGrid? {tie : Tie} (h : onGrid? tie x e = some s) : s.exponent = e := by
  unfold onGrid? at h
  grind

/-- On the grid of whole numbers below 2⁵³ only the number itself reads back. -/
theorem readsBack_ofInt_iff {i : Int} (h : i.natAbs < 2 ^ 53) (d k : Nat) :
    readsBack (ofInt i) ⟨d, k⟩ = true ↔ d * 10 ^ k = i.natAbs := by
  rw [readsBack_iff, size_ofInt]
  exact nearestBits_eq_iff h

end Scaled

/-- A zero at the end makes ten times the number. -/
theorem toDigits_mul_pow {n : Nat} (hn : 0 < n) (k : Nat) :
    Nat.toDigits 10 (n * 10 ^ k) = Nat.toDigits 10 n ++ Layout.zeros k := by
  induction k with
  | zero => simp [Layout.zeros]
  | succ k ih =>
    have hpos : 0 < n * 10 ^ k := Nat.mul_pos hn (Nat.pow_pos (by decide))
    have hstep : n * 10 ^ (k + 1) = 10 * (n * 10 ^ k) + 0 := by rw [Nat.pow_succ]; ring
    have hzero : Nat.toDigits 10 0 = ['0'] := Nat.toDigits_zero 10
    rw [hstep, ← Nat.toDigits_append_toDigits (by decide) hpos (by decide), ih, hzero,
      List.append_assoc, Layout.zeros, Layout.zeros, ← List.replicate_succ']

namespace Scaled
open Binary64
variable {x : Float} {e : Int}

/-- The place of the point, for a number of guard digits that is not evaluated. -/
theorem pointOf_eq {guard : Nat} (hguard : guard = 340) (x : Float) :
    pointOf x = (Nat.toDigits 10 (units x * 10 ^ guard / unitsOfOne)).length - (guard : Int) := by
  subst hguard
  rfl

theorem pointOf_ofInt {i : Int} (h : i.natAbs < 2 ^ 53) (hne : i ≠ 0) :
    pointOf (ofInt i) = (Nat.toDigits 10 i.natAbs).length := by
  obtain ⟨guard, hguard⟩ : ∃ guard, guard = 340 := ⟨_, rfl⟩
  have hscaled : units (ofInt i) * 10 ^ guard / unitsOfOne = i.natAbs * 10 ^ guard := by
    rw [units_ofInt h, Nat.mul_right_comm, Nat.mul_div_cancel _ unitsOfOne_pos]
  have hpos : 0 < i.natAbs := by omega
  rw [pointOf_eq hguard, hscaled, toDigits_mul_pow hpos, List.length_append, Layout.zeros,
    List.length_replicate]
  omega

theorem measured_ofNat (x : Float) (k : Nat) :
    measured x k = (units x, unitsOfOne * 10 ^ k) := rfl

/-- A grid is taken if the multiple below the double reads back. -/
theorem isSome_onGrid? {tie : Tie}
    (h : readsBack x ⟨(measured x e).1 / (measured x e).2, e⟩ = true) :
    (onGrid? tie x e).isSome = true := by
  unfold onGrid?
  grind

theorem isSome_onGrid?_ofInt {i : Int} (h : i.natAbs < 2 ^ 53) (tie : Tie) :
    (onGrid? tie (ofInt i) (0 : Nat)).isSome = true := by
  apply isSome_onGrid?
  rw [measured_ofNat, units_ofInt h, Nat.pow_zero, Nat.mul_one,
    Nat.mul_div_cancel _ unitsOfOne_pos, readsBack_ofInt_iff h, Nat.pow_zero, Nat.mul_one]

/-- The shortest digits of a whole number below 2⁵³ stand on a grid of whole numbers. -/
theorem shortest_ofInt {i : Int} (h : i.natAbs < 2 ^ 53) (hne : i ≠ 0) (tie : Tie) :
    ∃ d k : Nat, shortest tie (ofInt i) = ⟨d, k⟩ ∧ d * 10 ^ k = i.natAbs := by
  have hlength : (Nat.toDigits 10 i.natAbs).length ≤ 17 :=
    (Nat.length_toDigits_le_iff (by decide) (by decide)).mpr (by omega)
  unfold shortest
  simp only [pointOf_ofInt h hne]
  generalize (Nat.toDigits 10 i.natAbs).length = point at hlength
  -- The grid of the ones is among those that are tried, so none finer than it is.
  have hones : (onGrid? tie (ofInt i) ((point : Int) - (point : Nat))).isSome = true := by
    rw [Int.sub_self]
    exact isSome_onGrid?_ofInt h tie
  cases hfound : (List.range 18).findSome? fun n : Nat => onGrid? tie (ofInt i) (point - n) with
  | none =>
    have hnone := List.findSome?_eq_none_iff.mp hfound point (List.mem_range.mpr (by omega))
    rw [hnone] at hones
    cases hones
  | some s =>
    obtain ⟨tried, n, rest, hrange, hs, hbefore⟩ := List.findSome?_eq_some_iff.mp hfound
    have hn : n ≤ point := by
      have hmem : point ∈ tried ++ n :: rest := by
        rw [← hrange]
        exact List.mem_range.mpr (by omega)
      have hordered : (tried ++ n :: rest).Pairwise (· < ·) := by
        rw [← hrange]
        exact List.pairwise_lt_range
      rcases List.mem_append.mp hmem with htried | hrest
      · rw [hbefore point htried] at hones
        cases hones
      · rcases List.mem_cons.mp hrest with rfl | hrest
        · exact Nat.le_refl _
        · have hlater := (List.pairwise_append.mp hordered).2.1
          exact Nat.le_of_lt ((List.pairwise_cons.mp hlater).1 point hrest)
    obtain ⟨d, e⟩ := s
    obtain rfl : e = ((point - n : Nat) : Int) := by
      have he := exponent_of_onGrid? hs
      simp only at he
      omega
    refine ⟨d, point - n, rfl, ?_⟩
    exact (readsBack_ofInt_iff h d _).mp (readsBack_onGrid hs)

end Scaled

namespace Layout
open Binary64

/-- A sign stands before the digits of the number without it. -/
theorem plain_chars_of_negative {x : Float} (hfinite : x.isFinite = true)
    (hsign : isNegative x = true) : plain.chars x = '-' :: plain.chars (-x) := by
  have hsize := size_neg hfinite
  have hfinite' := isFinite_neg hfinite
  have hsign' : isNegative (-x) = false := by rw [isNegative_neg hfinite, hsign]; rfl
  have hzero : (-x == 0) = (x == 0) := by
    rw [Bool.eq_iff_iff, beq_zero_iff, beq_zero_iff, hsize]
  have hmagnitude : plain.magnitude (-x) = plain.magnitude x := by
    simp only [magnitude, Scaled.shortest_congr hsize]
  simp only [chars, isNaN_of_isFinite hfinite, isNaN_of_isFinite hfinite', hfinite, hfinite', hsign,
    hsign', hzero, hmagnitude, not_true, if_true, Bool.false_eq_true, if_false]

/-- The digits of a decimal on a grid of whole numbers. -/
theorem positionalDigits_ofNat (d k : Nat) :
    positionalDigits false (Nat.toDigits 10 d) ((Nat.toDigits 10 d).length + (k : Int)) =
      Nat.toDigits 10 d ++ zeros k := by
  have hpos : 0 < (Nat.toDigits 10 d).length := Nat.length_toDigits_pos
  have hzeros : (((Nat.toDigits 10 d).length + (k : Int)).toNat -
      (Nat.toDigits 10 d).length) = k := by
    omega
  rw [positionalDigits, if_neg (by omega), if_pos (by omega), hzeros]
  simp

theorem plain_chars_ofInt_of_nonneg {i : Int} (h : i.natAbs < 2 ^ 53) (hnonneg : 0 ≤ i) :
    plain.chars (ofInt i) = Nat.toDigits 10 i.natAbs := by
  obtain ⟨hwhole, -, hsign⟩ := ofInt_of_lt h
  have hfinite := (isWhole_iff.mp hwhole).1
  rw [decide_eq_false (by omega)] at hsign
  have hunits : unitsOfBits (size (ofInt i)) = i.natAbs * unitsOfOne := by
    rw [← units_eq_size, units_ofInt h]
  by_cases hzero : i = 0
  · subst hzero
    have hbeq : (ofInt 0 == 0) = true := by
      rw [beq_zero_iff, size_ofInt]
      exact nearestBits_zero 1
    simp only [chars, isNaN_of_isFinite hfinite, hfinite, hsign, hbeq, plain, not_true, if_true,
      Bool.false_eq_true, if_false]
    rfl
  · have hbeq : (ofInt i == 0) = false := by
      rw [← Bool.not_eq_true, beq_zero_iff]
      intro hsize
      rw [hsize] at hunits
      have hpos : 0 < i.natAbs * unitsOfOne := Nat.mul_pos (by omega) unitsOfOne_pos
      exact Nat.ne_of_lt hpos hunits
    obtain ⟨d, k, hshortest, hvalue⟩ := Scaled.shortest_ofInt h hzero .up
    have hd : 0 < d := by
      rcases Nat.eq_zero_or_pos d with rfl | hd
      · omega
      · exact hd
    have hmagnitude : plain.magnitude (ofInt i) = Nat.toDigits 10 i.natAbs := by
      rw [← hvalue, toDigits_mul_pow hd, ← positionalDigits_ofNat]
      simp only [magnitude, plain, hshortest, if_true]
    rw [← hmagnitude]
    simp only [chars, isNaN_of_isFinite hfinite, hfinite, hsign, hbeq, not_true, Bool.false_eq_true,
      if_false]

end Layout

/-- The digits of a whole number, with a sign before a negative one. -/
theorem toList_toString (i : Int) : (toString i).toList =
    if i < 0 then '-' :: Nat.toDigits 10 i.natAbs else Nat.toDigits 10 i.natAbs := by
  rw [Int.toString_eq_repr, Int.repr_eq_if]
  by_cases hneg : i < 0
  · have habs : (-i).toNat = i.natAbs := by omega
    rw [if_pos hneg, if_neg (by omega), String.toList_append, Nat.toList_repr, habs]
    rfl
  · have habs : i.toNat = i.natAbs := by omega
    rw [if_neg hneg, if_pos (by omega), Nat.toList_repr, habs]

namespace Layout
open Binary64

/-- A whole number below 2⁵³ is written in its own digits. -/
theorem plain_text_ofInt {i : Int} (h : i.natAbs < 2 ^ 53) : plain.text (ofInt i) = toString i := by
  rw [← String.toList_inj, text, String.toList_ofList, toList_toString]
  by_cases hneg : i < 0
  · obtain ⟨hwhole, -, hsign⟩ := ofInt_of_lt h
    rw [decide_eq_true hneg] at hsign
    have hopposite : -(ofInt i) = ofInt (-i) := by
      rw [neg_eq (isWhole_iff.mp hwhole).1, hsign, size_ofInt, ofInt, Int.natAbs_neg,
        decide_eq_false (by omega)]
      rfl
    rw [if_pos hneg, plain_chars_of_negative (isWhole_iff.mp hwhole).1 hsign, hopposite,
      plain_chars_ofInt_of_nonneg (by omega) (by omega), Int.natAbs_neg]
  · rw [if_neg hneg, plain_chars_ofInt_of_nonneg h (by omega)]

example : plain.text 9007199254740991 = "9007199254740991" := by decide +kernel

end Layout
end TableImport
