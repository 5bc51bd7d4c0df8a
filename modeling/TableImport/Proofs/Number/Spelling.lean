import TableImport.Proofs.Calendar.Reader
import TableImport.Proofs.Number.PlainText
import TableImport.Proofs.Text.Trimming
import TableImport.Table.Coerce

/-! Numbers in plain characters: they are the same as doubles, as amounts and as serial numbers. -/
namespace TableImport

/-- The characters of plain numbers. -/
def isPlainChar (c : Char) : Bool := isDigit c || c == '.' || c == '-' || c == '+'

theorem isPlainChar_cases {c : Char} (h : isPlainChar c = true) :
    isDigit c = true ∨ c = '.' ∨ c = '-' ∨ c = '+' := by
  simpa [isPlainChar, or_assoc] using h

theorem toNat_of_isPlainChar {c : Char} (h : isPlainChar c = true) :
    43 ≤ c.toNat ∧ c.toNat ≤ 57 ∧ c.toNat ≠ 44 := by
  rcases isPlainChar_cases h with h | rfl | rfl | rfl
  · have hdigit := toNat_of_isDigit h
    omega
  · decide
  · decide
  · decide

theorem toLower_of_isPlainChar {c : Char} (h : isPlainChar c = true) : c.toLower = c := by
  have hrange := toNat_of_isPlainChar h
  apply Char.toLower_eq_of_not_isUpper
  simp only [Char.isUpper, decide_eq_true_eq, ge_iff_le, UInt32.le_iff_toNat_le]
  have hupper : 'A'.val.toNat = 65 := rfl
  have hval : c.val.toNat = c.toNat := rfl
  omega

/-- A run of at least one digit. -/
def IsDigits (ds : List Char) : Prop := ds ≠ [] ∧ ∀ c ∈ ds, isDigit c = true

theorem isPlainChar_of_isDigit {c : Char} (h : isDigit c = true) : isPlainChar c = true := by
  simp [isPlainChar, h]

theorem isBlankChar_of_isPlainChar {c : Char} (h : isPlainChar c = true) :
    isBlankChar c = false := by
  have hrange := toNat_of_isPlainChar h
  exact isBlankChar_eq_false (by omega) (by omega)

/-- No word of letters is in plain characters. -/
theorem isWord_eq_false {word : String} (hword : word.toList.all isPlainChar = false)
    {cs : List Char} (hplain : ∀ c ∈ cs, isPlainChar c = true) : isWord word cs = false := by
  have hlower : cs.map Char.toLower = cs := by
    have hsame := List.map_congr_left fun c hc => toLower_of_isPlainChar (hplain c hc)
    exact hsame.trans (List.map_id' cs)
  rw [isWord, hlower, beq_eq_false_iff_ne]
  rintro rfl
  rw [List.all_eq_true.mpr hplain] at hword
  cases hword

/-! ### Parts of numbers -/

/-- The digits after a point, and what follows them. -/
def pointSplit : List Char → List Char × List Char
  | '.' :: r => (r.takeWhile isDigit, r.dropWhile isDigit)
  | r => ([], r)

theorem pointSplit_snd_suffix (cs : List Char) : (pointSplit cs).2 <:+ cs := by
  unfold pointSplit
  split
  · exact (List.dropWhile_suffix _).trans (List.suffix_cons _ _)
  · exact List.suffix_refl _

/-- If nothing follows the digits after a point, then there is no more to the text. -/
theorem of_pointSplit {cs fraction : List Char} (h : pointSplit cs = (fraction, [])) :
    (cs = [] ∨ cs = '.' :: fraction) ∧ ∀ c ∈ fraction, isDigit c = true := by
  unfold pointSplit at h
  split at h
  · next r =>
    obtain ⟨hfraction, hrest⟩ := Prod.mk.inj h
    have hall := List.takeWhile_append_dropWhile (p := isDigit) (l := r)
    rw [hrest, List.append_nil, hfraction] at hall
    subst hall
    refine ⟨.inr rfl, fun c hc => ?_⟩
    rw [← hfraction] at hc
    exact List.mem_takeWhile_imp hc
  · obtain ⟨rfl, rfl⟩ := Prod.mk.inj h
    exact ⟨.inl rfl, by simp⟩

theorem takeSign_cases (cs : List Char) : ∃ negative body, takeSign cs = (negative, body) ∧
    (cs = body ∨ cs = '-' :: body ∨ cs = '+' :: body) := by
  unfold takeSign
  split
  · exact ⟨_, _, rfl, .inr (.inl rfl)⟩
  · exact ⟨_, _, rfl, .inr (.inr rfl)⟩
  · exact ⟨_, _, rfl, .inl rfl⟩

theorem takeSign_of_ne {c : Char} {cs : List Char} (hminus : c ≠ '-') (hplus : c ≠ '+') :
    takeSign (c :: cs) = (false, c :: cs) := by
  unfold takeSign
  split
  · next heq => exact absurd (List.cons.inj heq).1 hminus
  · next heq => exact absurd (List.cons.inj heq).1 hplus
  · rfl

theorem ne_sign_of_isDigit {c : Char} (h : isDigit c = true) : c ≠ '-' ∧ c ≠ '+' := by
  constructor <;> (rintro rfl; cases h)

theorem readNumeral?_eq (cs : List Char) : readNumeral? cs =
    if cs.takeWhile isDigit = [] ∧ (pointSplit (cs.dropWhile isDigit)).1 = [] then none
    else (readExponent? (pointSplit (cs.dropWhile isDigit)).2).map fun e =>
      ⟨cs.takeWhile isDigit, (pointSplit (cs.dropWhile isDigit)).1, e⟩ := rfl

/-- An exponent starts with a letter. -/
theorem readExponent?_eq_some {cs : List Char} (hplain : ∀ c ∈ cs, isPlainChar c = true) {e : Int}
    (h : readExponent? cs = some e) : cs = [] ∧ e = 0 := by
  cases cs with
  | nil =>
    cases h
    exact ⟨rfl, rfl⟩
  | cons c cs =>
    unfold readExponent? at h
    simp only at h
    split at h
    · next hexponent =>
      have hc := hplain c List.mem_cons_self
      rcases hexponent.1 with rfl | rfl
      · cases hc
      · cases hc
    · cases h

/-- A sign or none and the digits of a numeral, with a point if there is one, make up the text. -/
structure Numeral.Spells (n : Numeral) (negative : Bool) (cs : List Char) : Prop where
  exponent_eq : n.exponent = 0
  not_empty : ¬(n.whole = [] ∧ n.fraction = [])
  parts : ∃ body, takeSign cs = (negative, body) ∧ body.takeWhile isDigit = n.whole ∧
    pointSplit (body.dropWhile isDigit) = (n.fraction, [])

/-- In plain characters there are no words for infinity or for no number. -/
theorem readFloatChars?_eq {cs body : List Char} {negative : Bool}
    (hsign : takeSign cs = (negative, body)) (hplain : ∀ c ∈ body, isPlainChar c = true) :
    readFloatChars? cs = (readNumeral? body).map (Numeral.toFloat negative) := by
  rw [readFloatChars?, hsign]
  simp only [isWord_eq_false (show "inf".toList.all isPlainChar = false by decide) hplain,
    isWord_eq_false (show "infinity".toList.all isPlainChar = false by decide) hplain,
    isWord_eq_false (show "nan".toList.all isPlainChar = false by decide) hplain, Bool.or_false,
    Bool.false_eq_true, if_false]

/-- What is read as a double in plain characters is spelled by a numeral. -/
theorem exists_spells {cs : List Char} (hplain : ∀ c ∈ cs, isPlainChar c = true) {x : Float}
    (h : readFloatChars? cs = some x) :
    ∃ (n : Numeral) (negative : Bool), n.Spells negative cs ∧ n.toFloat negative = x := by
  obtain ⟨negative, body, hsign, hcs⟩ := takeSign_cases cs
  have hbody : ∀ c ∈ body, isPlainChar c = true := by
    intro c hc
    rcases hcs with rfl | rfl | rfl
    · exact hplain c hc
    · exact hplain c (List.mem_cons_of_mem _ hc)
    · exact hplain c (List.mem_cons_of_mem _ hc)
  rw [readFloatChars?_eq hsign hbody] at h
  obtain ⟨n, hn, hx⟩ := Option.map_eq_some_iff.mp h
  rw [readNumeral?_eq] at hn
  split at hn
  · cases hn
  · next hne =>
    obtain ⟨e, he, rfl⟩ := Option.map_eq_some_iff.mp hn
    have hrest : (pointSplit (body.dropWhile isDigit)).2 <:+ body :=
      (pointSplit_snd_suffix _).trans (List.dropWhile_suffix _)
    obtain ⟨hnil, rfl⟩ := readExponent?_eq_some (fun c hc => hbody c (hrest.subset hc)) he
    refine ⟨_, negative, ⟨rfl, hne, body, hsign, rfl, ?_⟩, hx⟩
    rw [← hnil]

theorem amountOf?_eq (cs : List Char) : amountOf? cs =
    let signed := takeSign (dropOneOf ['¥', '￥', '$'] cs)
    let whole := signed.2.takeWhile isDigit
    let split := pointSplit (signed.2.dropWhile isDigit)
    let afterMyriads := dropOneOf ['万', 'w', 'W'] split.2
    let remainder := dropOneOf ['%', '％'] afterMyriads
    if (whole = [] ∧ split.1 = []) ∨ remainder ≠ [] then none
    else
      let x := Numeral.toFloat signed.1 ⟨whole, split.1, 0⟩
      some ⟨if afterMyriads = split.2 then x else x * 10000, afterMyriads ≠ []⟩ := rfl

theorem dropOneOf_eq_self {marks cs : List Char} (h : ∀ c ∈ cs, c ∉ marks) :
    dropOneOf marks cs = cs := by
  cases cs with
  | nil => rfl
  | cons c cs =>
    have hc : marks.contains c = false := by simpa using h c List.mem_cons_self
    rw [dropOneOf, if_neg (by rw [hc]; exact Bool.false_ne_true)]

namespace Numeral.Spells
variable {n : Numeral} {negative : Bool} {cs : List Char}

/-- As an amount, a numeral in plain characters has the same value and no percent sign. -/
theorem amountOf?_eq_some (h : n.Spells negative cs) (hplain : ∀ c ∈ cs, isPlainChar c = true) :
    amountOf? cs = some ⟨n.toFloat negative, false⟩ := by
  obtain ⟨body, hsign, hwhole, hsplit⟩ := h.parts
  have hcurrency : dropOneOf ['¥', '￥', '$'] cs = cs := by
    have hmarks : ∀ c ∈ ['¥', '￥', '$'], (!isPlainChar c) = true := List.all_eq_true.mp rfl
    apply dropOneOf_eq_self
    intro c hc hmark
    have hno := hmarks c hmark
    rw [hplain c hc] at hno
    cases hno
  have hn : (⟨n.whole, n.fraction, 0⟩ : Numeral) = n := by rw [← h.exponent_eq]
  have hrest : ¬((n.whole = [] ∧ n.fraction = []) ∨ dropOneOf ['%', '％'] [] ≠ []) := by
    simpa [dropOneOf] using h.not_empty
  rw [amountOf?_eq, hcurrency, hsign]
  simp only [hwhole, hsplit, hn, dropOneOf] at hrest ⊢
  rw [if_neg hrest]
  simp

/-- There is at most one point and at most one sign. -/
theorem count_le (h : n.Spells negative cs) {c : Char} (hc : isDigit c = false) :
    cs.count c ≤ (if '.' == c then 1 else 0) + (if '-' == c then 1 else 0) +
      if '+' == c then 1 else 0 := by
  obtain ⟨body, hsign, hwhole, hsplit⟩ := h.parts
  obtain ⟨hpoint, hfraction⟩ := of_pointSplit hsplit
  have hdigits : ∀ ds : List Char, (∀ d ∈ ds, isDigit d = true) → ds.count c = 0 := by
    intro ds hds
    refine List.count_eq_zero.mpr fun hmem => ?_
    rw [hds c hmem] at hc
    cases hc
  have hbody : body.count c ≤ if '.' == c then 1 else 0 := by
    rw [← List.takeWhile_append_dropWhile (p := isDigit) (l := body), List.count_append,
      hdigits _ fun d hd => List.mem_takeWhile_imp hd, Nat.zero_add]
    rcases hpoint with hnil | hcons
    · rw [hnil, List.count_nil]
      exact Nat.zero_le _
    · rw [hcons, List.count_cons, hdigits _ hfraction, Nat.zero_add]
  obtain ⟨negative', body', hsign', hcases⟩ := takeSign_cases cs
  obtain ⟨-, rfl⟩ := Prod.mk.inj (hsign.symm.trans hsign')
  rcases hcases with rfl | rfl | rfl
  · omega
  · rw [List.count_cons]
    omega
  · rw [List.count_cons]
    omega

/-- A numeral has none of the marks of dates. -/
theorem no_marks (h : n.Spells negative cs) : ∀ marks ∈ dateMarks, ¬marks.Sublist cs := by
  intro marks hmarks hsub
  have hle : ∀ c, isDigit c = false → marks.count c ≤ (if '.' == c then 1 else 0) +
      (if '-' == c then 1 else 0) + if '+' == c then 1 else 0 :=
    fun c hc => (hsub.count_le c).trans (h.count_le hc)
  simp only [dateMarks, List.mem_cons, List.not_mem_nil, or_false] at hmarks
  rcases hmarks with rfl | rfl | rfl | rfl
  · exact absurd (hle '-' (by decide)) (by decide)
  · exact absurd (hle '/' (by decide)) (by decide)
  · exact absurd (hle '.' (by decide)) (by decide)
  · exact absurd (hle '年' (by decide)) (by decide)

end Numeral.Spells
end TableImport
