import TableImport.Context
import TableImport.Proofs.Number.WholeText
import TableImport.Proofs.Table.Detection

/-! Cells with whole numbers below 2⁵³: the number and its text are stored under formats of texts
and of numbers as values that make the same natural key. -/
namespace TableImport
open Binary64 (ofInt)

/-- The digits of a whole number spell it, after a sign if it is negative. -/
theorem spells_toString (i : Int) : Numeral.Spells ⟨Nat.toDigits 10 i.natAbs, [], 0⟩
    (decide (i < 0)) (toString i).toList := by
  have hdigits : ∀ c ∈ Nat.toDigits 10 i.natAbs, isDigit c = true :=
    fun c hc => isDigit_of_mem_toDigits hc
  have hne : Nat.toDigits 10 i.natAbs ≠ [] := Nat.toDigits_ne_nil
  have hall : (Nat.toDigits 10 i.natAbs).takeWhile isDigit = Nat.toDigits 10 i.natAbs :=
    List.takeWhile_eq_self_iff.mpr hdigits
  have hnone : (Nat.toDigits 10 i.natAbs).dropWhile isDigit = [] :=
    List.dropWhile_eq_nil_iff.mpr hdigits
  refine ⟨rfl, fun h => hne h.1, Nat.toDigits 10 i.natAbs, ?_, hall, by rw [hnone]; rfl⟩
  rw [toList_toString]
  split
  · next hneg =>
    rw [decide_eq_true hneg]
    rfl
  · next hpos =>
    rw [decide_eq_false hpos]
    obtain ⟨c, cs, hcons⟩ := List.exists_cons_of_ne_nil hne
    obtain ⟨hminus, hplus⟩ := ne_sign_of_isDigit (hdigits c (hcons ▸ List.mem_cons_self))
    rw [hcons, takeSign_of_ne hminus hplus]

theorem isPlainChar_of_mem_toString (i : Int) :
    ∀ c ∈ (toString i).toList, isPlainChar c = true := by
  have hdigits : ∀ c ∈ Nat.toDigits 10 i.natAbs, isPlainChar c = true :=
    fun c hc => isPlainChar_of_isDigit (isDigit_of_mem_toDigits hc)
  rw [toList_toString]
  split
  · exact List.forall_mem_cons.mpr ⟨rfl, hdigits⟩
  · exact hdigits

theorem trimChars_toString (i : Int) : trimChars (toString i).toList = (toString i).toList :=
  trimChars_eq_self fun c hc => isBlankChar_of_isPlainChar (isPlainChar_of_mem_toString i c hc)

theorem isBlankText_toString (i : Int) : isBlankText (toString i) = false := by
  have hne : Nat.toDigits 10 i.natAbs ≠ [] := Nat.toDigits_ne_nil
  rw [Bool.eq_false_iff, ne_eq, isBlankText_iff, trimChars_toString, toList_toString]
  split
  · exact List.cons_ne_nil _ _
  · exact hne

theorem trim_toString (i : Int) : trim (toString i) = toString i := by
  rw [← String.toList_inj, toList_trim, trimChars_toString]

theorem toFloat_toDigits (i : Int) :
    Numeral.toFloat (decide (i < 0)) ⟨Nat.toDigits 10 i.natAbs, [], 0⟩ = ofInt i := by
  have hplain : Numeral.IsPlain ⟨Nat.toDigits 10 i.natAbs, [], 0⟩ :=
    ⟨Nat.toDigits_ne_nil, fun c hc => isDigit_of_mem_toDigits hc, by simp, rfl⟩
  have hscaled : Numeral.scaled ⟨Nat.toDigits 10 i.natAbs, [], 0⟩ = ⟨i.natAbs, 0⟩ := by
    simp [Numeral.scaled, Numeral.digits, Nat.ofDigitChars_ten_toDigits]
  rw [Numeral.toFloat_of_isPlain hplain, hscaled]
  simp [Scaled.toFloat, Scaled.ratio, ofInt]

/-- The text of a whole number is the amount that it is. -/
theorem parseAmount?_toString (i : Int) : parseAmount? (toString i) = some ⟨ofInt i, false⟩ := by
  have hplain := isPlainChar_of_mem_toString i
  have hkept : (toString i).toList.filter (fun c => !isSeparator c) = (toString i).toList := by
    rw [filter_isSeparator, trimChars_toString]
    rwa [trimChars_toString]
  rw [parseAmount?, hkept, (spells_toString i).amountOf?_eq_some hplain, toFloat_toDigits]

section
variable {i : Int}

/-- Below 2⁵³ a whole number is stored as such, not as a double. -/
theorem jsonNumber?_ofInt (h : i.natAbs < 2 ^ 53) : jsonNumber? (ofInt i) = some (.int i) := by
  obtain ⟨hwhole, habs, -⟩ := Binary64.ofInt_of_lt h
  have hsmall : (ofInt i).abs < 9007199254740992 := by
    rw [Binary64.abs_lt_iff_whole_lt hwhole (n := 2 ^ 53) (by decide) (by decide)
      (by decide +kernel), habs]
    exact h
  rw [jsonNumber?, if_pos ⟨hwhole, hsmall⟩, Binary64.toInt64_ofInt h]

theorem numberText_ofInt (h : i.natAbs < 2 ^ 53) : numberText (ofInt i) = toString i := by
  rw [numberText]
  split
  · rw [Binary64.toInt64_ofInt h]
  · exact Layout.plain_text_ofInt h

theorem naturalKey?_string (i : Int) : naturalKey? (.string (toString i)) = some (toString i) := by
  rw [naturalKey?, isBlankText_toString, trim_toString]
  rfl

theorem naturalKey?_int (h : i.natAbs < 2 ^ 53) : naturalKey? (.int i) = some (toString i) := by
  have hfits : Json.fitsInt64 i = true := by
    simp only [Json.fitsInt64, decide_eq_true_eq]
    omega
  simp [naturalKey?, Json.wholeNumber?, Json.int64?, hfits]

/-- The number and its text are stored as values with the same natural key, as texts and as
numbers. -/
theorem Cell.coerce_whole (h : i.natAbs < 2 ^ 53) {c : Cell}
    (hc : c = .number (ofInt i) ∨ c = .text (toString i)) {format : CellFormat}
    (hformat : format = .text ∨ format = .number) :
    ∃ v, c.coerce format = .value v ∧ naturalKey? v = some (toString i) := by
  have hblank : c.isBlank = false := by
    rcases hc with rfl | rfl
    · rfl
    · exact isBlankText_toString i
  have htext : c.text? = some (toString i) := by
    rcases hc with rfl | rfl
    · rw [text?, numberText_ofInt h]
    · rfl
  have hamount : c.amount? = some ⟨ofInt i, false⟩ := by
    rcases hc with rfl | rfl
    · rfl
    · exact parseAmount?_toString i
  rcases hformat with rfl | rfl
  · refine ⟨.string (toString i), ?_, naturalKey?_string i⟩
    simp only [coerce, hblank, htext, trim_toString, Bool.false_eq_true, if_false]
  · refine ⟨.int i, ?_, naturalKey?_int h⟩
    simp [coerce, hblank, coerceNumber, hamount, jsonNumber?_ofInt h]

end
end TableImport
