import TableImport.Number.Layout
import TableImport.Proofs.Number.Nearest

/-! The plain text of a finite double without a sign: digits around an optional point, which
read back. -/
namespace TableImport

section
variable {p : Char → Bool} {cs rest : List Char}

/-- A run of characters is taken up to the first that is not of its kind. -/
theorem takeWhile_append_of_head (hcs : ∀ c ∈ cs, p c = true)
    (hrest : ∀ c ∈ rest.head?, p c = false) : (cs ++ rest).takeWhile p = cs := by
  rw [List.takeWhile_append_of_pos hcs]
  cases rest with
  | nil => simp
  | cons c rest => simp [hrest c rfl]

theorem dropWhile_append_of_head (hcs : ∀ c ∈ cs, p c = true)
    (hrest : ∀ c ∈ rest.head?, p c = false) : (cs ++ rest).dropWhile p = rest := by
  rw [List.dropWhile_append_of_pos hcs]
  cases rest with
  | nil => rfl
  | cons c rest => simp [hrest c rfl]

end

theorem isDigit_of_isDigit {c : Char} (h : c.isDigit = true) : isDigit c = true := by
  simpa [Char.isDigit, isDigit, Char.le_def] using h

theorem toNat_of_isDigit {c : Char} (h : isDigit c = true) : 48 ≤ c.toNat ∧ c.toNat ≤ 57 := by
  simpa [isDigit, Char.le_def, UInt32.le_iff_toNat_le] using h

theorem isDigit_of_mem_toDigits {d : Nat} {c : Char} (h : c ∈ Nat.toDigits 10 d) :
    isDigit c = true :=
  isDigit_of_isDigit (Nat.isDigit_of_mem_toDigits (by decide) (by decide) h)

theorem isDigit_of_mem_zeros {n : Nat} (c : Char) (h : c ∈ Layout.zeros n) : isDigit c = true := by
  rw [List.eq_of_mem_replicate h]
  decide

/-- Digits with no exponent behind them. -/
structure Numeral.IsPlain (n : Numeral) : Prop where
  whole_ne_nil : n.whole ≠ []
  whole_digits : ∀ c ∈ n.whole, isDigit c = true
  fraction_digits : ∀ c ∈ n.fraction, isDigit c = true
  exponent_eq : n.exponent = 0

namespace Numeral

/-- The digits of a numeral, with a point if there are any after it. -/
def plainChars (n : Numeral) : List Char :=
  n.whole ++ if n.fraction = [] then [] else '.' :: n.fraction

theorem length_plainChars (n : Numeral) : n.plainChars.length =
    if n.fraction = [] then n.whole.length else n.whole.length + 1 + n.fraction.length := by
  unfold plainChars
  split
  · simp
  · simp only [List.length_append, List.length_cons]
    omega

theorem toFloat_of_isPlain {n : Numeral} (h : n.IsPlain) (negative : Bool) :
    n.toFloat negative = n.scaled.toFloat negative := by
  have hexp : n.scaled.exponent = -(n.fraction.length : Int) := by
    simp [scaled, h.exponent_eq]
  unfold toFloat
  simp only
  by_cases hzero : n.scaled.digits = 0
  · have hscaled : n.scaled = ⟨0, -(n.fraction.length : Int)⟩ := by rw [← hzero, ← hexp]
    rw [if_pos (Or.inl hzero), hscaled, Scaled.toFloat_neg, Binary64.nearest,
      Binary64.nearestBits_zero]
  · have hsmall : ¬(n.scaled.digits = 0 ∨
        (n.whole.length + n.fraction.length : Int) + n.scaled.exponent < -400) := by
      omega
    have hlarge : ¬400 < n.scaled.exponent := by omega
    rw [if_neg hsmall, if_neg hlarge]

end Numeral

namespace Scaled

/-- The numeral that the positional digits of a decimal are. -/
def numeral (s : Scaled) : Numeral :=
  let ds := Nat.toDigits 10 s.digits
  let point : Int := ds.length + s.exponent
  if point ≤ 0 then ⟨['0'], Layout.zeros (-point).toNat ++ ds, 0⟩
  else if (ds.length : Int) ≤ point then ⟨ds ++ Layout.zeros (point.toNat - ds.length), [], 0⟩
  else ⟨ds.take point.toNat, ds.drop point.toNat, 0⟩

theorem numeral_isPlain (s : Scaled) : s.numeral.IsPlain := by
  have hdigits : ∀ c ∈ Nat.toDigits 10 s.digits, isDigit c = true :=
    fun c hc => isDigit_of_mem_toDigits hc
  have hne : Nat.toDigits 10 s.digits ≠ [] := Nat.toDigits_ne_nil
  unfold numeral
  simp only
  split
  · refine ⟨List.cons_ne_nil _ _, isDigit_of_mem_zeros (n := 1), ?_, rfl⟩
    intro c hc
    rcases List.mem_append.mp hc with hc | hc
    · exact isDigit_of_mem_zeros c hc
    · exact hdigits c hc
  · next hpoint =>
    split
    · refine ⟨by simp [hne], ?_, by simp, rfl⟩
      intro c hc
      rcases List.mem_append.mp hc with hc | hc
      · exact hdigits c hc
      · exact isDigit_of_mem_zeros c hc
    · next hlong =>
      refine ⟨?_, fun c hc => hdigits c (List.mem_of_mem_take hc),
        fun c hc => hdigits c (List.mem_of_mem_drop hc), rfl⟩
      simp only [ne_eq, List.take_eq_nil_iff, hne, or_false]
      omega

theorem positionalDigits_eq (s : Scaled) :
    Layout.positionalDigits false (Nat.toDigits 10 s.digits)
      ((Nat.toDigits 10 s.digits).length + s.exponent) = s.numeral.plainChars := by
  have hne : Nat.toDigits 10 s.digits ≠ [] := Nat.toDigits_ne_nil
  unfold Layout.positionalDigits numeral Numeral.plainChars
  simp only
  split
  · simp [hne]
  · next hpoint =>
    split
    · simp
    · next hlong =>
      have hdrop : (Nat.toDigits 10 s.digits).drop
          ((Nat.toDigits 10 s.digits).length + s.exponent).toNat ≠ [] := by
        simp only [ne_eq, List.drop_eq_nil_iff]
        omega
      simp only [if_neg hdrop]

theorem ofDigitChars_zeros_append (n : Nat) (ds : List Char) :
    Nat.ofDigitChars 10 (Layout.zeros n ++ ds) 0 = Nat.ofDigitChars 10 ds 0 := by
  rw [Nat.ofDigitChars_append, Layout.zeros, Nat.ofDigitChars_replicate_zero, Nat.mul_zero]

/-- The numeral denotes the decimal. -/
theorem numeral_scaled_toFloat (s : Scaled) (negative : Bool) :
    s.numeral.scaled.toFloat negative = s.toFloat negative := by
  have hpos : 0 < (Nat.toDigits 10 s.digits).length :=
    List.length_pos_iff.2 Nat.toDigits_ne_nil
  unfold numeral
  simp only
  split
  · next hpoint =>
    have hdigits : Nat.ofDigitChars 10 (['0'] ++ (Layout.zeros
        (-((Nat.toDigits 10 s.digits).length + s.exponent)).toNat ++
          Nat.toDigits 10 s.digits)) 0 = s.digits := by
      have hone : ['0'] = Layout.zeros 1 := rfl
      rw [hone, ofDigitChars_zeros_append, ofDigitChars_zeros_append,
        Nat.ofDigitChars_ten_toDigits]
    have hexp : (0 : Int) - ((Layout.zeros
        (-((Nat.toDigits 10 s.digits).length + s.exponent)).toNat ++
          Nat.toDigits 10 s.digits).length : Nat) = s.exponent := by
      simp only [Layout.zeros, List.length_append, List.length_replicate]
      omega
    simp only [Numeral.scaled, Numeral.digits, hdigits, hexp]
  · next hpoint =>
    split
    · next hshort =>
      obtain ⟨k, hk⟩ : ∃ k : Nat, s.exponent = k := ⟨s.exponent.toNat, by omega⟩
      have hzeros : ((Nat.toDigits 10 s.digits).length + s.exponent).toNat -
          (Nat.toDigits 10 s.digits).length = k := by
        omega
      have hdigits : Nat.ofDigitChars 10 (Nat.toDigits 10 s.digits ++ Layout.zeros k) 0 =
          s.digits * 10 ^ k := by
        rw [Nat.ofDigitChars_append, Nat.ofDigitChars_ten_toDigits, Layout.zeros,
          Nat.ofDigitChars_replicate_zero, Nat.mul_comm]
      have hs : s = ⟨s.digits, .ofNat k⟩ := by
        rw [Int.ofNat_eq_natCast, ← hk]
      simp only [Numeral.scaled, Numeral.digits, hzeros, List.append_nil, hdigits]
      rw [hs]
      simp [toFloat, ratio]
    · next hlong =>
      have hdigits : Nat.ofDigitChars 10 ((Nat.toDigits 10 s.digits).take
          ((Nat.toDigits 10 s.digits).length + s.exponent).toNat ++
          (Nat.toDigits 10 s.digits).drop
            ((Nat.toDigits 10 s.digits).length + s.exponent).toNat) 0 = s.digits := by
        rw [List.take_append_drop, Nat.ofDigitChars_ten_toDigits]
      have hexp : (0 : Int) - (((Nat.toDigits 10 s.digits).drop
          ((Nat.toDigits 10 s.digits).length + s.exponent).toNat).length : Nat) = s.exponent := by
        rw [List.length_drop]
        omega
      simp only [Numeral.scaled, Numeral.digits, hdigits, hexp]

end Scaled

namespace Layout

/-- What is written for a finite double without a sign reads back, with no exponent. -/
theorem plain_chars {x : Float} (hfinite : x.isFinite = true)
    (hsign : Binary64.isNegative x = false) :
    ∃ n : Numeral, n.IsPlain ∧ plain.chars x = n.plainChars ∧ n.toFloat false = x := by
  have hnan := Binary64.isNaN_of_isFinite hfinite
  by_cases hzero : (x == 0) = true
  · have hplain : (⟨['0'], [], 0⟩ : Numeral).IsPlain :=
      ⟨by simp, isDigit_of_mem_zeros (n := 1), by simp, rfl⟩
    refine ⟨⟨['0'], [], 0⟩, hplain, ?_, ?_⟩
    · simp only [chars, hnan, hfinite, hzero, hsign, Numeral.plainChars, plain, not_true, if_true,
        Bool.false_eq_true, if_false, List.append_nil]
    · have hbits := Binary64.ofSignBits_size x
      rw [hsign, Binary64.size_eq_zero_of_beq_zero hzero] at hbits
      exact hbits
  · refine ⟨(Scaled.shortest .up x).numeral, Scaled.numeral_isPlain _, ?_, ?_⟩
    · rw [← Scaled.positionalDigits_eq]
      simp only [chars, hnan, hfinite, hzero, hsign, magnitude, plain, not_true, if_true,
        Bool.false_eq_true, if_false]
    · have hback := Scaled.shortest_toFloat .up hfinite
      rw [hsign] at hback
      rw [Numeral.toFloat_of_isPlain (Scaled.numeral_isPlain _), Scaled.numeral_scaled_toFloat,
        hback]

end Layout
end TableImport
