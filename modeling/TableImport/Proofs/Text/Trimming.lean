import Mathlib.Data.List.DropRight
import TableImport.Text.Blank

/-! Texts without the blanks around them. -/
namespace TableImport
variable {cs : List Char}

/-- Blanks apart from the ordinary space lie outside the printable characters. -/
theorem isBlankChar_eq_false {c : Char} (hlow : 33 ≤ c.toNat) (hhigh : c.toNat ≤ 126) :
    isBlankChar c = false := by
  simp only [isBlankChar, inRanges, blankRanges, List.any_cons, List.any_nil, Bool.or_false,
    Bool.or_eq_false_iff, decide_eq_false_iff_not, not_and]
  omega

theorem trimEnd_eq (cs : List Char) : trimEnd cs = cs.rdropWhile isBlankChar := rfl

theorem trimStart_trimChars (cs : List Char) : trimStart (trimChars cs) = trimChars cs := by
  unfold trimStart
  rw [List.dropWhile_eq_self_iff]
  intro hpos
  have hkept : trimChars cs <+: trimStart cs := List.rdropWhile_prefix isBlankChar _
  rw [hkept.getElem hpos]
  exact List.dropWhile_get_zero_not isBlankChar cs _

/-- Once trimmed, a text has no more blanks at its ends. -/
@[simp] theorem trimChars_trimChars (cs : List Char) : trimChars (trimChars cs) = trimChars cs := by
  rw [trimChars, trimStart_trimChars, trimChars, trimEnd_eq, trimEnd_eq]
  exact List.rdropWhile_idempotent isBlankChar _

@[simp] theorem trim_trim (s : String) : trim (trim s) = trim s := by
  rw [trim, toList_trim, trimChars_trimChars]
  rfl

theorem trimChars_eq_nil_iff : trimChars cs = [] ↔ ∀ c ∈ cs, isBlankChar c = true := by
  rw [trimChars, trimEnd_eq, List.rdropWhile_eq_nil_iff, trimStart]
  constructor
  · intro h c hc
    rw [← List.takeWhile_append_dropWhile (p := isBlankChar) (l := cs)] at hc
    rcases List.mem_append.mp hc with hc | hc
    · exact List.mem_takeWhile_imp hc
    · exact h c hc
  · intro h c hc
    exact h c (List.dropWhile_subset isBlankChar hc)

theorem trimStart_eq_self (h : ∀ c ∈ cs, isBlankChar c = false) : trimStart cs = cs := by
  cases cs with
  | nil => rfl
  | cons c cs => simp [trimStart, h c List.mem_cons_self]

theorem trimChars_eq_self (h : ∀ c ∈ cs, isBlankChar c = false) : trimChars cs = cs := by
  have hreverse : ∀ c ∈ cs.reverse, isBlankChar c = false :=
    fun c hc => h c (List.mem_reverse.mp hc)
  have hend : trimEnd cs = (trimStart cs.reverse).reverse := rfl
  rw [trimChars, trimStart_eq_self h, hend, trimStart_eq_self hreverse, List.reverse_reverse]

theorem isBlankText_iff {s : String} : isBlankText s = true ↔ trimChars s.toList = [] := by
  rw [isBlankText, List.all_eq_true, trimChars_eq_nil_iff]

/-- What keeps no blanks does not see whether a text has been trimmed. -/
theorem filter_trimChars {p : Char → Bool} (hp : ∀ c, isBlankChar c = true → p c = false)
    (cs : List Char) : (trimChars cs).filter p = cs.filter p := by
  have hdrop : ∀ ds : List Char, (ds.dropWhile isBlankChar).filter p = ds.filter p := by
    intro ds
    have hblank : (ds.takeWhile isBlankChar).filter p = [] := by
      rw [List.filter_eq_nil_iff]
      intro c hc
      simp [hp c (List.mem_takeWhile_imp hc)]
    conv_rhs => rw [← List.takeWhile_append_dropWhile (p := isBlankChar) (l := ds)]
    rw [List.filter_append, hblank, List.nil_append]
  rw [trimChars, trimEnd, List.filter_reverse, hdrop, List.filter_reverse, List.reverse_reverse,
    trimStart, hdrop]

end TableImport
