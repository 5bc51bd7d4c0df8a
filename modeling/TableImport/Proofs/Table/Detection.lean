import TableImport.Proofs.Number.Spelling
import TableImport.Table.Csv

/-! Numbers detected in delimited text: their cells are read as those of the texts are. -/
namespace TableImport

section
variable {α β γ δ ε : Type} {R : α → β → Prop} {S : γ → δ → Prop}

end

theorem isSeparator_eq_false {c : Char} (h : isPlainChar c = true) : isSeparator c = false := by
  have hblank := isBlankChar_of_isPlainChar h
  have hcomma : c ≠ ',' := by
    rintro rfl
    cases h
  have hwide : c ≠ '，' := by
    rintro rfl
    cases h
  simp [isSeparator, hblank, hcomma, hwide]

theorem filter_isSeparator {cs : List Char} (h : ∀ c ∈ trimChars cs, isPlainChar c = true) :
    cs.filter (fun c => !isSeparator c) = trimChars cs := by
  have htrim : (trimChars cs).filter (fun c => !isSeparator c) =
      cs.filter (fun c => !isSeparator c) := by
    apply filter_trimChars
    intro c hc
    simp [isSeparator, hc]
  rw [← htrim, List.filter_eq_self]
  intro c hc
  rw [isSeparator_eq_false (h c hc)]
  rfl

namespace Cell

/-- A cell in which a number may have been detected, and the cell that has the text. -/
inductive Detected : Cell → Cell → Prop where
  | same (c : Cell) : Detected c c
  | number {x : Float} {s : String} (hplain : ∀ c ∈ trimChars s.toList, isPlainChar c = true)
      (hread : readFloatChars? (trimChars s.toList) = some x) (hshown : numberText x = trim s) :
      Detected (.number x) (.text s)
  | blank {s : String} (h : isBlankText s = true) : Detected .empty (.text s)

namespace Detected
variable {a b : Cell}

theorem isBlank (h : Detected a b) : a.isBlank = b.isBlank := by
  cases h with
  | same => rfl
  | @number x s _ hread _ =>
    have hnone : readFloatChars? [] = none := by rfl
    symm
    rw [Cell.isBlank, Cell.isBlank, Bool.eq_false_iff, ne_eq, isBlankText_iff]
    intro hnil
    rw [hnil, hnone] at hread
    cases hread
  | blank h => exact h.symm

theorem amount? (h : Detected a b) : a.amount? = b.amount? := by
  cases h with
  | same => rfl
  | number hplain hread _ =>
    obtain ⟨n, negative, hspells, rfl⟩ := exists_spells hplain hread
    rw [Cell.amount?, Cell.amount?, parseAmount?, filter_isSeparator hplain,
      hspells.amountOf?_eq_some hplain]
  | blank h =>
    have hnil := isBlankText_iff.mp h
    rw [Cell.amount?, Cell.amount?, parseAmount?, filter_isSeparator (by simp [hnil]), hnil]
    rfl

theorem number? (h : Detected a b) : a.number? = b.number? := by
  rw [Cell.number?, Cell.number?, h.amount?]

theorem coerceNumber (h : Detected a b) (asPercentage : Bool) :
    a.coerceNumber asPercentage = b.coerceNumber asPercentage := by
  rw [Cell.coerceNumber, Cell.coerceNumber, h.amount?]

/-- In every format both cells have the same value, or none for the same reason. -/
theorem coerce (h : Detected a b) (format : CellFormat) : a.coerce format = b.coerce format := by
  unfold Cell.coerce
  rw [h.isBlank]
  by_cases hblank : b.isBlank = true
  · rw [if_pos hblank, if_pos hblank]
  rw [if_neg hblank, if_neg hblank]
  cases format with
  | number => exact h.coerceNumber false
  | percentage => exact h.coerceNumber true
  | text =>
    cases h with
    | same => rfl
    | @number x s _ _ hshown =>
      show Coerced.value (.string (trim (numberText x))) = .value (.string (trim s))
      rw [hshown, trim_trim]
    | blank h => exact absurd h hblank
  | date =>
    have hdate : a.date? = b.date? := by
      cases h with
      | same => rfl
      | number hplain hread _ =>
        -- The text has no layout of a date, so it is read as the number that it shows.
        obtain ⟨n, negative, hspells, -⟩ := exists_spells hplain hread
        rw [Cell.date?, Cell.date?, readDate?_of_no_marks hspells.no_marks, hread]
        rfl
      | blank h => exact absurd h hblank
    simp only [hdate]

end Detected
end Cell

namespace Csv

variable (o : ReadOptions)

end Csv
end TableImport
