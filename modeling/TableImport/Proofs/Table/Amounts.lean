import TableImport.Proofs.Number.Spelling

/-! The grammar of number texts: which texts are read as numbers, and as which. -/
namespace TableImport

/-- Digits, with a point behind them and more digits or none, or with a point before them. -/
inductive IsDecimal : List Char → Prop where
  | whole {ds : List Char} (hds : IsDigits ds) : IsDecimal ds
  | pointed {ds es : List Char} (hds : IsDigits ds) (hes : ∀ c ∈ es, isDigit c = true) :
      IsDecimal (ds ++ '.' :: es)
  | fraction {es : List Char} (hes : IsDigits es) : IsDecimal ('.' :: es)

/-- Characters of which none goes on with a decimal. -/
def EndsDecimal (rest : List Char) : Prop := ∀ c ∈ rest.head?, isDigit c = false ∧ c ≠ '.'

namespace EndsDecimal
variable {rest ds : List Char}

theorem nil : EndsDecimal [] := by simp [EndsDecimal]

theorem cut (h : EndsDecimal rest) (hds : ∀ c ∈ ds, isDigit c = true) :
    (ds ++ rest).takeWhile isDigit = ds ∧ (ds ++ rest).dropWhile isDigit = rest := by
  have hhead : ∀ c ∈ rest.head?, isDigit c = false := fun c hc => (h c hc).1
  exact ⟨takeWhile_append_of_head hds hhead, dropWhile_append_of_head hds hhead⟩

theorem pointSplit_eq (h : EndsDecimal rest) : pointSplit rest = ([], rest) := by
  unfold pointSplit
  split
  · exact absurd rfl (h '.' rfl).2
  · rfl

end EndsDecimal

namespace IsDecimal
variable {ds : List Char}

/-- The digits before and after the point, as they are cut off before anything that does not go on
with the decimal. -/
theorem exists_parts (h : IsDecimal ds) : ∃ whole fraction : List Char,
    ¬(whole = [] ∧ fraction = []) ∧ ∀ rest, EndsDecimal rest →
      (ds ++ rest).takeWhile isDigit = whole ∧
        pointSplit ((ds ++ rest).dropWhile isDigit) = (fraction, rest) := by
  have hpoint : isDigit '.' = false := by decide
  cases h with
  | whole hds =>
    refine ⟨ds, [], by simp [hds.1], fun rest hrest => ?_⟩
    obtain ⟨htake, hdrop⟩ := hrest.cut hds.2
    exact ⟨htake, by rw [hdrop, hrest.pointSplit_eq]⟩
  | @pointed ds es hds hes =>
    refine ⟨ds, es, by simp [hds.1], fun rest hrest => ?_⟩
    obtain ⟨htake, hdrop⟩ := hrest.cut hes
    rw [List.append_assoc, List.takeWhile_append_of_pos hds.2, List.dropWhile_append_of_pos hds.2]
    simp [hpoint, pointSplit, htake, hdrop]
  | @fraction es hes =>
    refine ⟨[], es, by simp [hes.1], fun rest hrest => ?_⟩
    obtain ⟨htake, hdrop⟩ := hrest.cut hes.2
    simp [hpoint, pointSplit, htake, hdrop]

/-- A decimal starts with a digit or a point. -/
theorem exists_cons (h : IsDecimal ds) :
    ∃ c cs, ds = c :: cs ∧ (isDigit c = true ∨ c = '.') := by
  have hstart : ∀ {es : List Char}, IsDigits es → ∃ c cs, es = c :: cs ∧ isDigit c = true := by
    intro es hes
    obtain ⟨c, cs, rfl⟩ := List.exists_cons_of_ne_nil hes.1
    exact ⟨c, cs, rfl, hes.2 c List.mem_cons_self⟩
  cases h with
  | whole hds =>
    obtain ⟨c, cs, rfl, hc⟩ := hstart hds
    exact ⟨c, cs, rfl, .inl hc⟩
  | pointed hds _ =>
    obtain ⟨c, cs, rfl, hc⟩ := hstart hds
    exact ⟨c, _, rfl, .inl hc⟩
  | fraction _ => exact ⟨'.', _, rfl, .inr rfl⟩

theorem isPlainChar (h : IsDecimal ds) : ∀ c ∈ ds, isPlainChar c = true := by
  cases h with
  | whole hds => exact fun c hc => isPlainChar_of_isDigit (hds.2 c hc)
  | pointed hds hes =>
    refine List.forall_mem_append.mpr ⟨fun c hc => isPlainChar_of_isDigit (hds.2 c hc), ?_⟩
    exact List.forall_mem_cons.mpr ⟨rfl, fun c hc => isPlainChar_of_isDigit (hes c hc)⟩
  | fraction hes =>
    exact List.forall_mem_cons.mpr ⟨rfl, fun c hc => isPlainChar_of_isDigit (hes.2 c hc)⟩

/-- Digits that are cut off around a point make up a decimal, if there are any. -/
theorem exists_of_parts {body : List Char} (h : ¬(body.takeWhile isDigit = [] ∧
      (pointSplit (body.dropWhile isDigit)).1 = [])) :
    ∃ ds, IsDecimal ds ∧ body = ds ++ (pointSplit (body.dropWhile isDigit)).2 := by
  have hwhole : ∀ c ∈ body.takeWhile isDigit, isDigit c = true :=
    fun c hc => List.mem_takeWhile_imp hc
  have hbody := List.takeWhile_append_dropWhile (p := isDigit) (l := body)
  generalize body.takeWhile isDigit = whole at h hwhole hbody
  generalize body.dropWhile isDigit = after at h hbody
  subst hbody
  unfold pointSplit at h ⊢
  split at h
  · next r =>
    have hfraction : ∀ c ∈ r.takeWhile isDigit, isDigit c = true :=
      fun c hc => List.mem_takeWhile_imp hc
    have hr := List.takeWhile_append_dropWhile (p := isDigit) (l := r)
    by_cases hne : whole = []
    · subst hne
      refine ⟨'.' :: r.takeWhile isDigit, .fraction ⟨fun hnil => h ⟨rfl, hnil⟩, hfraction⟩, ?_⟩
      rw [List.nil_append, List.cons_append, hr]
    · refine ⟨whole ++ '.' :: r.takeWhile isDigit, .pointed ⟨hne, hwhole⟩ hfraction, ?_⟩
      rw [List.append_assoc, List.cons_append, hr]
  · exact ⟨whole, .whole ⟨fun hnil => h ⟨hnil, rfl⟩, hwhole⟩, rfl⟩

end IsDecimal

/-! ### Marks -/

theorem exists_of_dropOneOf (marks cs : List Char) : ∃ mark? : Option Char,
    (∀ c ∈ mark?, c ∈ marks) ∧ cs = mark?.toList ++ dropOneOf marks cs := by
  cases cs with
  | nil => exact ⟨none, by simp, rfl⟩
  | cons c cs =>
    rw [dropOneOf]
    split
    · next hc => exact ⟨some c, by simpa using hc, rfl⟩
    · exact ⟨none, by simp, rfl⟩

theorem dropOneOf_append {marks rest : List Char} {mark? : Option Char}
    (hmark : ∀ c ∈ mark?, c ∈ marks) (hrest : ∀ c ∈ rest.head?, c ∉ marks) :
    dropOneOf marks (mark?.toList ++ rest) = rest := by
  cases mark? with
  | some c =>
    have hc : c ∈ marks := hmark c rfl
    simp [dropOneOf, hc]
  | none =>
    cases rest with
    | nil => rfl
    | cons c rest =>
      have hc : c ∉ marks := hrest c rfl
      simp [dropOneOf, hc]

/-- The parts of a number text without separators. All but the decimal may be absent. -/
structure AmountText where
  currency? : Option Char
  sign? : Option Char
  decimal : List Char
  myriads? : Option Char
  percent? : Option Char
  currency_mem : ∀ c ∈ currency?, c ∈ ['¥', '￥', '$']
  sign_mem : ∀ c ∈ sign?, c ∈ ['+', '-']
  isDecimal : IsDecimal decimal
  myriads_mem : ∀ c ∈ myriads?, c ∈ ['万', 'w', 'W']
  percent_mem : ∀ c ∈ percent?, c ∈ ['%', '％']

namespace AmountText

/-- The sign and the decimal. -/
def signed (t : AmountText) : List Char := t.sign?.toList ++ t.decimal

/-- What stands behind the decimal. -/
def suffix (t : AmountText) : List Char := t.myriads?.toList ++ t.percent?.toList

def chars (t : AmountText) : List Char := t.currency?.toList ++ (t.signed ++ t.suffix)

variable (t : AmountText)

theorem mem_suffix {c : Char} (h : c ∈ t.suffix) : c ∈ ['万', 'w', 'W', '%', '％'] := by
  rcases List.mem_append.mp h with hc | hc
  · have hmyriads := t.myriads_mem c (Option.mem_toList.mp hc)
    exact List.mem_append_left ['%', '％'] hmyriads
  · have hpercent := t.percent_mem c (Option.mem_toList.mp hc)
    exact List.mem_append_right ['万', 'w', 'W'] hpercent

theorem endsDecimal_suffix : EndsDecimal t.suffix := by
  have hends : ∀ c ∈ ['万', 'w', 'W', '%', '％'], (!isDigit c && c != '.') = true :=
    List.all_eq_true.mp rfl
  intro c hc
  simpa using hends c (t.mem_suffix (List.mem_of_mem_head? hc))

theorem isPlainChar_signed {c : Char} (h : c ∈ t.signed) : isPlainChar c = true := by
  rcases List.mem_append.mp h with hc | hc
  · have hsign := t.sign_mem c (Option.mem_toList.mp hc)
    rcases List.mem_pair.mp hsign with rfl | rfl <;> rfl
  · exact t.isDecimal.isPlainChar c hc

/-- The number begins with a digit, a point or a sign, which are no signs of currencies. -/
theorem head?_signed_append {rest : List Char} :
    ∀ c ∈ (t.signed ++ rest).head?, c ∉ ['¥', '￥', '$'] := by
  have hmarks : ∀ c ∈ ['¥', '￥', '$'], (!isPlainChar c) = true := List.all_eq_true.mp rfl
  obtain ⟨d, ds, hdecimal, -⟩ := t.isDecimal.exists_cons
  have hne : t.signed ≠ [] := by simp [signed, hdecimal]
  intro c hc hmark
  rw [List.head?_append_of_ne_nil _ hne] at hc
  have hplain := t.isPlainChar_signed (List.mem_of_mem_head? hc)
  have hno := hmarks c hmark
  rw [hplain] at hno
  cases hno

/-- The sign is cut off, whatever stands behind the decimal. -/
theorem takeSign_signed : ∃ negative, ∀ rest,
    takeSign (t.signed ++ rest) = (negative, t.decimal ++ rest) := by
  obtain ⟨c, cs, hdecimal, hc⟩ := t.isDecimal.exists_cons
  cases hsign : t.sign? with
  | none =>
    have hne : c ≠ '-' ∧ c ≠ '+' := by
      rcases hc with hc | rfl
      · exact ne_sign_of_isDigit hc
      · decide
    refine ⟨false, fun rest => ?_⟩
    rw [signed, hsign, hdecimal]
    exact takeSign_of_ne hne.1 hne.2
  | some s =>
    have hs : s ∈ ['+', '-'] := t.sign_mem s hsign
    refine ⟨s == '-', fun rest => ?_⟩
    rw [signed, hsign]
    rcases List.mem_pair.mp hs with rfl | rfl <;> rfl

/-- A text of this form is a number, with the double of its sign and decimal. -/
theorem amountOf?_chars : ∃ x, readFloatChars? t.signed = some x ∧
    amountOf? t.chars =
      some ⟨if t.myriads?.isSome then x * 10000 else x, t.percent?.isSome⟩ := by
  obtain ⟨negative, hsign⟩ := t.takeSign_signed
  obtain ⟨whole, fraction, hne, hparts⟩ := t.isDecimal.exists_parts
  refine ⟨Numeral.toFloat negative ⟨whole, fraction, 0⟩, ?_, ?_⟩
  · obtain ⟨htake, hdrop⟩ := hparts [] .nil
    have hsign' : takeSign t.signed = (negative, t.decimal) := by simpa using hsign []
    rw [List.append_nil] at htake hdrop
    rw [readFloatChars?_eq hsign' t.isDecimal.isPlainChar, readNumeral?_eq, htake, hdrop,
      if_neg hne]
    rfl
  · obtain ⟨htake, hdrop⟩ := hparts t.suffix t.endsDecimal_suffix
    have hcurrency : dropOneOf ['¥', '￥', '$'] t.chars = t.signed ++ t.suffix :=
      dropOneOf_append t.currency_mem t.head?_signed_append
    have hmyriads : dropOneOf ['万', 'w', 'W'] t.suffix = t.percent?.toList := by
      apply dropOneOf_append t.myriads_mem
      intro c hc hmark
      have hpercent := t.percent_mem c (Option.mem_toList.mp (List.mem_of_mem_head? hc))
      rcases List.mem_pair.mp hpercent with rfl | rfl
      · exact absurd hmark (by decide)
      · exact absurd hmark (by decide)
    have hpercent : dropOneOf ['%', '％'] t.percent?.toList = [] := by
      have hdropped : dropOneOf ['%', '％'] (t.percent?.toList ++ []) = [] :=
        dropOneOf_append t.percent_mem (by simp)
      rwa [List.append_nil] at hdropped
    have hnot : ¬((whole = [] ∧ fraction = []) ∨ ([] : List Char) ≠ []) := by simpa using hne
    rw [amountOf?_eq, hcurrency, hsign]
    simp only [htake, hdrop, hmyriads, hpercent, if_neg hnot]
    rw [suffix]
    cases t.myriads? <;> cases t.percent? <;> simp

end AmountText

/-- Every text that is read as a number has this form. -/
theorem exists_amountText {cs : List Char} (h : (amountOf? cs).isSome = true) :
    ∃ t : AmountText, t.chars = cs := by
  obtain ⟨currency?, hcurrency, hcs⟩ := exists_of_dropOneOf ['¥', '￥', '$'] cs
  generalize hrest : dropOneOf ['¥', '￥', '$'] cs = rest at hcs
  obtain ⟨negative, body, hsign, hbody⟩ := takeSign_cases rest
  obtain ⟨sign?, hmem, hrest'⟩ : ∃ sign? : Option Char, (∀ c ∈ sign?, c ∈ ['+', '-']) ∧
      rest = sign?.toList ++ body := by
    rcases hbody with rfl | rfl | rfl
    · exact ⟨none, by simp, rfl⟩
    · exact ⟨some '-', by simp, rfl⟩
    · exact ⟨some '+', by simp, rfl⟩
  simp only [amountOf?_eq, hrest, hsign] at h
  split at h
  · cases h
  next hread =>
  obtain ⟨hdigits, hend⟩ := not_or.mp hread
  obtain ⟨decimal, hdecimal, hsplit⟩ := IsDecimal.exists_of_parts hdigits
  generalize (pointSplit (body.dropWhile isDigit)).2 = suffix at hsplit hend
  obtain ⟨myriads?, hmyriads, hsuffix⟩ := exists_of_dropOneOf ['万', 'w', 'W'] suffix
  generalize dropOneOf ['万', 'w', 'W'] suffix = percent at hsuffix hend
  obtain ⟨percent?, hpercent, hlast⟩ := exists_of_dropOneOf ['%', '％'] percent
  rw [not_not.mp hend, List.append_nil] at hlast
  refine ⟨⟨currency?, sign?, decimal, myriads?, percent?, hcurrency, hmem, hdecimal, hmyriads,
    hpercent⟩, ?_⟩
  rw [hcs, hrest', hsplit, hsuffix, hlast, AmountText.chars, AmountText.signed, AmountText.suffix,
    List.append_assoc]

/-- Exactly the texts of the grammar are numbers, wherever separators stand in them: the double that
is read from the sign and the decimal, ten thousand times it with the mark for that, and a
percentage with a percent sign. -/
theorem parseAmount?_grammar (s : String) :
    ((parseAmount? s).isSome = true ↔
        ∃ t : AmountText, t.chars = s.toList.filter fun c => !isSeparator c) ∧
      (∀ t : AmountText, t.chars = s.toList.filter (fun c => !isSeparator c) →
        ∃ x, readFloatChars? t.signed = some x ∧
          parseAmount? s = some ⟨if t.myriads?.isSome then x * 10000 else x, t.percent?.isSome⟩) ∧
      ∀ before separators after : String, s = before ++ after →
        (∀ c ∈ separators.toList, isSeparator c = true) →
        parseAmount? (before ++ separators ++ after) = parseAmount? s := by
  have hvalue : ∀ t : AmountText, t.chars = s.toList.filter (fun c => !isSeparator c) →
      ∃ x, readFloatChars? t.signed = some x ∧
        parseAmount? s =
          some ⟨if t.myriads?.isSome then x * 10000 else x, t.percent?.isSome⟩ := by
    intro t ht
    obtain ⟨x, hread, hamount⟩ := t.amountOf?_chars
    exact ⟨x, hread, by rw [parseAmount?, ← ht, hamount]⟩
  refine ⟨⟨exists_amountText, ?_⟩, hvalue, ?_⟩
  · rintro ⟨t, ht⟩
    obtain ⟨x, -, hamount⟩ := hvalue t ht
    rw [hamount]
    rfl
  · rintro before separators after rfl hseparators
    have hnone : separators.toList.filter (fun c => !isSeparator c) = [] := by
      rw [List.filter_eq_nil_iff]
      intro c hc
      simp [hseparators c hc]
    rw [parseAmount?, parseAmount?]
    simp only [String.toList_append, List.filter_append, hnone, List.append_nil]

/-- Digits of other scripts and exponents are not in the grammar. -/
example : parseAmount? "１２" = none ∧ parseAmount? "1e5" = none := by
  refine ⟨?_, ?_⟩ <;> rfl

end TableImport
