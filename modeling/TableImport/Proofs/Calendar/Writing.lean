import TableImport.Proofs.Number.Spelling

/-! The texts of dates: every date of the calendar is read back from its text, at the first layout
that is tried. -/
namespace TableImport

/-! ### Numbers with zeros before them -/

namespace Date

/-- Zeros on the left do not change what number the digits are. -/
theorem ofDigitChars_padded (width n : Nat) : Nat.ofDigitChars 10 (padded width n) 0 = n := by
  unfold padded
  simp only
  rw [Nat.ofDigitChars_append, Nat.ofDigitChars_replicate_zero, Nat.mul_zero,
    Nat.ofDigitChars_ten_toDigits]

theorem padded_injective (width : Nat) : Function.Injective (padded width) := by
  intro m n h
  calc m = Nat.ofDigitChars 10 (padded width m) 0 := (ofDigitChars_padded width m).symm
    _ = Nat.ofDigitChars 10 (padded width n) 0 := by rw [h]
    _ = n := ofDigitChars_padded width n

theorem isDigits_padded (width n : Nat) : IsDigits (padded width n) := by
  constructor
  · intro hnil
    have hlast : Nat.toDigits 10 n = [] := (List.append_eq_nil_iff.mp hnil).2
    exact Nat.toDigits_ne_nil hlast
  · intro c hc
    rcases List.mem_append.mp hc with hc | hc
    · exact isDigit_of_mem_zeros c hc
    · exact isDigit_of_mem_toDigits hc

theorem length_padded {width n : Nat} (h : n < 10 ^ width) (hpos : 0 < width) :
    (padded width n).length = width := by
  have hle : (Nat.toDigits 10 n).length ≤ width :=
    (Nat.length_toDigits_le_iff (by decide) hpos).mpr h
  simp only [padded, List.length_append, List.length_replicate]
  omega

end Date

section
variable {cs ds rest : List Char} {c : Char}

/-- A run of digits is taken as a whole, if it is not too long and more digits do not follow. -/
theorem takeNumberUpTo?_append {most : Nat} (hds : IsDigits ds) (hmost : ds.length ≤ most)
    (hrest : ∀ c ∈ rest.head?, isDigit c = false) :
    takeNumberUpTo? most (ds ++ rest) = some (Nat.ofDigitChars 10 ds 0, rest) := by
  have htake : ((ds ++ rest).takeWhile isDigit).take most = ds := by
    rw [takeWhile_append_of_head hds.2 hrest, List.take_of_length_le hmost]
  rw [takeNumberUpTo?]
  simp only [htake, if_neg hds.1, List.drop_left]

theorem takeYear?_of_isDigit (hc : isDigit c = true) :
    takeYear? (c :: cs) = (takeNumberUpTo? 4 (c :: cs)).map fun (n, r) => ((n : Int), r) := by
  unfold takeYear?
  split
  · next heq =>
    obtain ⟨rfl, -⟩ := List.cons.inj heq
    cases hc
  · next heq =>
    obtain ⟨rfl, -⟩ := List.cons.inj heq
    cases hc
  · rfl

/-- Every year is read back, with its sign if it has one. -/
theorem takeYear?_yearChars (year : Int) (hrest : ∀ c ∈ rest.head?, isDigit c = false) :
    takeYear? (Date.yearChars year ++ rest) = some (year, rest) := by
  have hdigits := Date.isDigits_padded 4 year.natAbs
  have hvalue := Date.ofDigitChars_padded 4 year.natAbs
  unfold Date.yearChars
  split
  · next hshort =>
    have hlength : (Date.padded 4 year.natAbs).length = 4 :=
      Date.length_padded (by omega) (by decide)
    have htake := takeNumberUpTo?_append hdigits hlength.le hrest
    obtain ⟨c, cs, hcons⟩ := List.exists_cons_of_ne_nil hdigits.1
    have hc : isDigit c = true := hdigits.2 c (hcons ▸ List.mem_cons_self)
    rw [hvalue, hcons, List.cons_append] at htake
    rw [hcons, List.cons_append, takeYear?_of_isDigit hc, htake, Option.map_some]
    exact congrArg some (Prod.ext (Int.natAbs_of_nonneg hshort.1) rfl)
  · have hlength : (Date.padded 4 year.natAbs).length ≤
        (Date.padded 4 year.natAbs ++ rest).length := by
      simp
    have htake := takeNumberUpTo?_append hdigits hlength hrest
    rw [hvalue] at htake
    split
    · next hneg =>
      have hyear : -(year.natAbs : Int) = year := by omega
      rw [List.cons_append, takeYear?, htake, Option.map_some]
      exact congrArg some (Prod.ext hyear rfl)
    · next hpos =>
      have hyear : (year.natAbs : Int) = year := by omega
      rw [List.cons_append, takeYear?, htake, Option.map_some]
      exact congrArg some (Prod.ext hyear rfl)

end

namespace Date

theorem isPlainChar_of_mem_padded (width n : Nat) :
    ∀ c ∈ padded width n, isPlainChar c = true :=
  fun c hc => isPlainChar_of_isDigit ((isDigits_padded width n).2 c hc)

theorem isPlainChar_of_mem_yearChars (year : Int) : ∀ c ∈ yearChars year, isPlainChar c = true := by
  unfold yearChars
  split
  · exact isPlainChar_of_mem_padded 4 _
  · refine List.forall_mem_cons.mpr ⟨?_, isPlainChar_of_mem_padded 4 _⟩
    split <;> rfl

/-- The month and the day, each after a hyphen. -/
def monthDayChars (d : Date) : List Char := '-' :: padded 2 d.month ++ '-' :: padded 2 d.day

theorem chars_eq (d : Date) : d.chars = yearChars d.year ++ d.monthDayChars := by
  simp [chars, monthDayChars]

theorem isPlainChar_of_mem_chars (d : Date) : ∀ c ∈ d.chars, isPlainChar c = true := by
  have hhyphen : isPlainChar '-' = true := rfl
  rw [chars_eq]
  refine List.forall_mem_append.mpr ⟨isPlainChar_of_mem_yearChars d.year, ?_⟩
  refine List.forall_mem_append.mpr ⟨List.forall_mem_cons.mpr ⟨hhyphen, ?_⟩,
    List.forall_mem_cons.mpr ⟨hhyphen, ?_⟩⟩
  · exact isPlainChar_of_mem_padded 2 _
  · exact isPlainChar_of_mem_padded 2 _

theorem isBlankChar_of_mem_chars (d : Date) : ∀ c ∈ d.chars, isBlankChar c = false :=
  fun c hc => isBlankChar_of_isPlainChar (d.isPlainChar_of_mem_chars c hc)

theorem month_day_lt (d : Date) : d.month < 100 ∧ d.day < 100 := by
  obtain ⟨-, -, -, hmonth, -, hday⟩ := d.isDate
  have hlong : monthLength d.year d.month ≤ 31 := by
    unfold monthLength
    split
    · split <;> decide
    all_goals decide
  omega

/-- A month or a day is read back, up to the hyphen or the end. -/
theorem takeNumberUpTo?_padded {n : Nat} {rest : List Char} (h : n < 100)
    (hrest : ∀ c ∈ rest.head?, isDigit c = false) :
    takeNumberUpTo? 2 (trimStart (padded 2 n ++ rest)) = some (n, rest) := by
  have hdigits := isDigits_padded 2 n
  have hlength : (padded 2 n).length = 2 := length_padded h (by decide)
  have htrim : trimStart (padded 2 n ++ rest) = padded 2 n ++ rest := by
    obtain ⟨c, cs, hcons⟩ := List.exists_cons_of_ne_nil hdigits.1
    have hc : isPlainChar c = true :=
      isPlainChar_of_mem_padded 2 n c (hcons ▸ List.mem_cons_self)
    simp [hcons, trimStart, isBlankChar_of_isPlainChar hc]
  rw [htrim, takeNumberUpTo?_append hdigits hlength.le hrest, ofDigitChars_padded]

/-- A date is read back from its text. -/
theorem readLayout?_chars (d : Date) : readLayout? d.chars (ymd '-') = some d := by
  have hhyphen : isDigit '-' = false := by decide
  obtain ⟨hmonth, hday⟩ := d.month_day_lt
  have hyear : takeYear? (trimStart d.chars) = some (d.year, d.monthDayChars) := by
    rw [trimStart_eq_self d.isBlankChar_of_mem_chars, chars_eq]
    exact takeYear?_yearChars d.year (by simp [monthDayChars, hhyphen])
  have hmonthChars : takeNumberUpTo? 2 (trimStart (padded 2 d.month ++ '-' :: padded 2 d.day)) =
      some (d.month, '-' :: padded 2 d.day) :=
    takeNumberUpTo?_padded hmonth (by simp [hhyphen])
  have hdayChars : takeNumberUpTo? 2 (trimStart (padded 2 d.day ++ [])) = some (d.day, []) :=
    takeNumberUpTo?_padded hday (by simp)
  rw [List.append_nil] at hdayChars
  have hparts : takeParts? {} d.chars (ymd '-') =
      some { year := d.year, month := d.month, day := d.day } := by
    simp only [ymd, takeParts?, takePart?, hyear, Option.map_some, Option.bind_some, monthDayChars,
      List.cons_append, hmonthChars, hdayChars, if_true]
  rw [readLayout?, hparts]
  simp [DateFields.date?]

/-- No other date has the same text. -/
theorem text_injective : Function.Injective text := by
  intro d e h
  have hchars : d.chars = e.chars := String.ofList_injective h
  have hread := d.readLayout?_chars
  rw [hchars, e.readLayout?_chars] at hread
  exact (Option.some.inj hread).symm

end Date

/-- The text of a date is the date, before any other layout is tried. -/
theorem readDate?_chars (d : Date) : readDate? d.chars = some d := by
  rw [readDate?, dateLayouts, List.findSome?_cons, d.readLayout?_chars]
  rfl

namespace Cell

theorem date?_text (d : Date) : (Cell.text d.text).date? = some d := by
  rw [date?, Date.text, String.toList_ofList, trimChars_eq_self d.isBlankChar_of_mem_chars,
    readDate?_chars]

theorem isBlank_text (d : Date) : (Cell.text d.text).isBlank = false := by
  rw [isBlank, Bool.eq_false_iff, ne_eq, isBlankText_iff, Date.text, String.toList_ofList,
    trimChars_eq_self d.isBlankChar_of_mem_chars, Date.chars_eq]
  simp [Date.monthDayChars]

/-- A cell with the text of a date is stored as it is. -/
theorem coerce_date_text (d : Date) :
    (Cell.text d.text).coerce .date = .value (.string d.text) := by
  rw [coerce, isBlank_text, date?_text]
  rfl

/-- Dates are stored in one form: what is stored is the text of a date of the calendar, which is
read as that date again and stored as it is. -/
theorem coerce_date_canonical {c : Cell} {v : Json} (h : c.coerce .date = .value v) :
    ∃ d : Date, c.date? = some d ∧ v = .string d.text ∧ (Cell.text d.text).date? = some d ∧
      (Cell.text d.text).coerce .date = .value v := by
  rw [coerce] at h
  split at h
  · cases h
  · cases hdate : c.date? with
    | none => simp [hdate] at h
    | some d =>
      simp only [hdate, Coerced.value.injEq] at h
      subst h
      exact ⟨d, rfl, rfl, date?_text d, coerce_date_text d⟩

theorem coerce_date_canonical_leapDay :
    (Cell.text " +12024.2.29 ").coerce .date = .value (.string "+12024-02-29") ∧
      (Cell.text "+12024-02-29").coerce .date = .value (.string "+12024-02-29") := by
  have h : (Cell.text " +12024.2.29 ").coerce .date = .value (.string "+12024-02-29") := by rfl
  obtain ⟨d, -, hv, -, hagain⟩ := coerce_date_canonical h
  rw [← Json.string.inj hv] at hagain
  exact ⟨h, hagain⟩

end Cell
end TableImport
