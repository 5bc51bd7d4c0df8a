import TableImport.Expr.Lexer
import TableImport.Proofs.Number.PlainText

/-! The numerals of expressions: the longest one at the head of a text. -/
namespace TableImport

/-- Digits on at least one side of a point, and no exponent behind them. -/
structure Numeral.IsDecimal (n : Numeral) : Prop where
  ne_nil : n.whole ≠ [] ∨ n.fraction ≠ []
  whole_digits : ∀ c ∈ n.whole, isDigit c = true
  fraction_digits : ∀ c ∈ n.fraction, isDigit c = true
  exponent_eq : n.exponent = 0

theorem Numeral.IsPlain.isDecimal {n : Numeral} (h : n.IsPlain) : n.IsDecimal :=
  ⟨.inl h.whole_ne_nil, h.whole_digits, h.fraction_digits, h.exponent_eq⟩

namespace Expr
variable {c : Char} {cs more : List Char} {n : Numeral}

def headNumeral (cs : List Char) : Numeral := ⟨(numberChars cs).1, (numberChars cs).2, 0⟩

theorem prefix_headNumeral (cs : List Char) : (headNumeral cs).plainChars <+: cs := by
  have hcs := List.takeWhile_append_dropWhile (p := isDigit) (l := cs)
  unfold headNumeral numberChars Numeral.plainChars
  simp only
  split
  · next r hrest =>
    rw [hrest] at hcs
    by_cases hfraction : r.takeWhile isDigit = []
    · rw [if_pos hfraction, List.append_nil]
      exact ⟨_, hcs⟩
    · rw [if_neg hfraction]
      refine ⟨r.dropWhile isDigit, ?_⟩
      rw [List.append_assoc, List.cons_append, List.takeWhile_append_dropWhile, hcs]
  · rw [if_pos rfl, List.append_nil]
    exact ⟨_, hcs⟩

def BeginsNumber (c : Char) (cs : List Char) : Prop :=
  isDigit c = true ∨ c = '.' ∧ cs.head?.any isDigit = true

theorem BeginsNumber.append (h : BeginsNumber c more) (rest : List Char) :
    BeginsNumber c (more ++ rest) := by
  refine h.imp_right fun ⟨hpoint, hdigit⟩ => ⟨hpoint, ?_⟩
  cases more with
  | nil => cases hdigit
  | cons d ds => exact hdigit

theorem headNumeral_isDecimal (h : BeginsNumber c cs) : (headNumeral (c :: cs)).IsDecimal := by
  have hpoint : isDigit '.' = false := by decide
  refine ⟨?_, fun _ hd => List.mem_takeWhile_imp hd, ?_, rfl⟩
  · rcases h with h | ⟨rfl, h⟩
    · left
      simp [headNumeral, numberChars, h]
    · right
      cases cs with
      | nil => cases h
      | cons d ds =>
        have hd : isDigit d = true := h
        simp [headNumeral, numberChars, hpoint, hd]
  · intro d hd
    simp only [headNumeral, numberChars] at hd
    split at hd
    · exact List.mem_takeWhile_imp hd
    · cases hd

/-- A numeral begins with a digit, or with a point and a digit. -/
theorem exists_plainChars_eq_cons (hn : n.IsDecimal) :
    ∃ c more, n.plainChars = c :: more ∧ BeginsNumber c more := by
  unfold Numeral.plainChars
  cases hwhole : n.whole with
  | cons d ds =>
    exact ⟨d, _, List.cons_append, .inl (hn.whole_digits d (hwhole ▸ List.mem_cons_self))⟩
  | nil =>
    have hfraction : n.fraction ≠ [] := hn.ne_nil.resolve_left (not_not_intro hwhole)
    obtain ⟨d, ds, hds⟩ := List.exists_cons_of_ne_nil hfraction
    refine ⟨'.', n.fraction, if_neg hfraction, .inr ⟨rfl, ?_⟩⟩
    rw [hds]
    exact hn.fraction_digits d (hds ▸ List.mem_cons_self)

theorem isDigit_or_point_of_mem_plainChars (hn : n.IsDecimal) (hd : c ∈ n.plainChars) :
    isDigit c = true ∨ c = '.' := by
  rcases List.mem_append.mp hd with hd | hd
  · exact .inl (hn.whole_digits c hd)
  · split at hd
    · cases hd
    · rcases List.mem_cons.mp hd with rfl | hd
      · exact .inr rfl
      · exact .inl (hn.fraction_digits c hd)

/-- More digits may follow a numeral, but the longest one does not end before its end. -/
theorem numberChars_append (hn : n.IsDecimal) (rest : List Char) :
    numberChars (n.plainChars ++ rest) =
      if n.fraction = [] then (n.whole ++ rest.takeWhile isDigit, (numberChars rest).2)
      else (n.whole, n.fraction ++ rest.takeWhile isDigit) := by
  unfold numberChars Numeral.plainChars
  by_cases hfraction : n.fraction = []
  · rw [if_pos hfraction, if_pos hfraction, List.append_nil,
      List.takeWhile_append_of_pos hn.whole_digits, List.dropWhile_append_of_pos hn.whole_digits]
  · have hpoint : isDigit '.' = false := by decide
    rw [if_neg hfraction, if_neg hfraction, List.append_assoc,
      List.takeWhile_append_of_pos hn.whole_digits, List.dropWhile_append_of_pos hn.whole_digits]
    simp [hpoint, List.takeWhile_append_of_pos hn.fraction_digits]

theorem length_le_headNumeral (hn : n.IsDecimal) (rest : List Char) :
    n.plainChars.length ≤ (headNumeral (n.plainChars ++ rest)).plainChars.length := by
  rw [Numeral.length_plainChars, Numeral.length_plainChars, headNumeral, numberChars_append hn]
  by_cases hfraction : n.fraction = []
  · simp only [if_pos hfraction, List.length_append]
    split <;> omega
  · simp [hfraction]

theorem headNumeral_plainChars (hn : n.IsDecimal) : headNumeral n.plainChars = n := by
  have hchars := numberChars_append hn []
  rw [List.append_nil] at hchars
  obtain ⟨whole, fraction, exponent⟩ := n
  obtain rfl : exponent = 0 := hn.exponent_eq
  rw [headNumeral, hchars]
  split
  · next hfraction => simpa [numberChars] using hfraction.symm
  · simp

/-- Where the longest numeral is no longer than a numeral that begins there, it is this one. -/
theorem headNumeral_append (hn : n.IsDecimal) {rest : List Char}
    (h : (headNumeral (n.plainChars ++ rest)).plainChars.length ≤ n.plainChars.length) :
    headNumeral (n.plainChars ++ rest) = n := by
  have hprefix : (headNumeral (n.plainChars ++ rest)).plainChars <+: n.plainChars :=
    List.prefix_of_prefix_length_le (prefix_headNumeral _) (List.prefix_append ..) h
  have hchars := hprefix.eq_of_length_le (length_le_headNumeral hn rest)
  have hdecimal : (headNumeral (n.plainChars ++ rest)).IsDecimal := by
    obtain ⟨c, more, hcons, hbegins⟩ := exists_plainChars_eq_cons hn
    rw [hcons, List.cons_append]
    exact headNumeral_isDecimal (hbegins.append rest)
  rw [← headNumeral_plainChars hdecimal, hchars, headNumeral_plainChars hn]

end Expr
end TableImport
