import Mathlib.Data.List.Basic
import TableImport.Calendar.Reader

/-! The marks that texts of dates have in them; a text without such marks is read as a serial
number, or not at all. -/
namespace TableImport

/-- The characters that a part of a layout asks for. -/
def DatePart.marks : DatePart → List Char
  | mark c => [c]
  | _ => []

theorem trimStart_suffix (cs : List Char) : trimStart cs <:+ cs := List.dropWhile_suffix _

section
variable {cs r : List Char} {most width : Nat}

theorem suffix_of_takeNumberUpTo? {n : Nat} (h : takeNumberUpTo? most cs = some (n, r)) :
    r <:+ cs := by
  unfold takeNumberUpTo? at h
  simp only at h
  split at h
  · cases h
  · cases h
    exact List.drop_suffix _ _

theorem suffix_of_takeYear? {year : Int} (h : takeYear? cs = some (year, r)) : r <:+ cs := by
  unfold takeYear? at h
  split at h
  · obtain ⟨⟨n, s⟩, hn, hr⟩ := Option.map_eq_some_iff.mp h
    cases hr
    exact (suffix_of_takeNumberUpTo? hn).trans (List.suffix_cons _ _)
  · obtain ⟨⟨n, s⟩, hn, hr⟩ := Option.map_eq_some_iff.mp h
    cases hr
    exact (suffix_of_takeNumberUpTo? hn).trans (List.suffix_cons _ _)
  · obtain ⟨⟨n, s⟩, hn, hr⟩ := Option.map_eq_some_iff.mp h
    cases hr
    exact suffix_of_takeNumberUpTo? hn

theorem suffix_of_takeExactly? {n : Nat} (h : takeExactly? width cs = some (n, r)) :
    r <:+ cs := by
  unfold takeExactly? at h
  simp only at h
  split at h
  · cases h
    exact List.drop_suffix _ _
  · cases h

theorem eq_cons_of_takeOneOf? {marks : List Char} (h : takeOneOf? marks cs = some r) :
    ∃ c ∈ marks, cs = c :: r := by
  unfold takeOneOf? at h
  split at h
  · split at h
    · next c s hc =>
      cases h
      exact ⟨c, by simpa using hc, rfl⟩
    · cases h
  · cases h

end

variable {f g : DateFields} {cs r : List Char}

theorem sublist_of_takePart? {p : DatePart} (h : takePart? f cs p = some (g, r)) :
    (p.marks ++ r).Sublist cs := by
  cases p with
  | year =>
    obtain ⟨⟨n, s⟩, hn, hr⟩ := Option.map_eq_some_iff.mp h
    cases hr
    exact ((suffix_of_takeYear? hn).trans (trimStart_suffix cs)).sublist
  | month | day | hour | minute | second =>
    obtain ⟨⟨n, s⟩, hn, hr⟩ := Option.map_eq_some_iff.mp h
    cases hr
    exact ((suffix_of_takeNumberUpTo? hn).trans (trimStart_suffix cs)).sublist
  | mark c =>
    unfold takePart? at h
    simp only at h
    split at h
    · next d s =>
      split at h
      · next hd =>
        cases h
        rw [hd]
        exact List.Sublist.refl _
      · cases h
    · cases h
  | blanks =>
    cases h
    exact (trimStart_suffix cs).sublist

/-- The marks of a layout stand in every text that is read by it, in their order. -/
theorem sublist_of_takeParts? {ps : List DatePart} (h : takeParts? f cs ps = some g) :
    (ps.flatMap DatePart.marks).Sublist cs := by
  induction ps generalizing f cs with
  | nil => exact List.nil_sublist cs
  | cons p ps ih =>
    obtain ⟨⟨f', r⟩, hpart, hrest⟩ := Option.bind_eq_some_iff.mp h
    rw [List.flatMap_cons]
    exact ((ih hrest).append_left p.marks).trans (sublist_of_takePart? hpart)

theorem sublist_of_readTimestamp? {d : Date} (h : readTimestamp? cs = some d) :
    ['-', '-'].Sublist cs := by
  unfold readTimestamp? at h
  obtain ⟨⟨year, r₁⟩, hyear, h⟩ := Option.bind_eq_some_iff.mp h
  obtain ⟨r₂, hfirst, h⟩ := Option.bind_eq_some_iff.mp h
  obtain ⟨⟨month, r₃⟩, hmonth, h⟩ := Option.bind_eq_some_iff.mp h
  obtain ⟨r₄, hsecond, -⟩ := Option.bind_eq_some_iff.mp h
  obtain ⟨c, hc, rfl⟩ := eq_cons_of_takeOneOf? hfirst
  obtain ⟨d, hd, rfl⟩ := eq_cons_of_takeOneOf? hsecond
  obtain rfl := List.mem_singleton.mp hc
  obtain rfl := List.mem_singleton.mp hd
  have hlast : ['-'].Sublist r₂ :=
    (List.singleton_sublist.mpr List.mem_cons_self).trans (suffix_of_takeExactly? hmonth).sublist
  exact (hlast.cons_cons '-').trans (suffix_of_takeExactly? hyear).sublist

/-- Every layout asks for the same mark twice, or for that of the year. -/
def dateMarks : List (List Char) := [['-', '-'], ['/', '/'], ['.', '.'], ['年']]

theorem exists_dateMarks : ∀ layout ∈ dateLayouts ++ dateTimeLayouts,
    ∃ marks ∈ dateMarks, marks.Sublist (layout.flatMap DatePart.marks) := by
  decide

/-- Without the marks of a date a text can only be a serial number. -/
theorem readDate?_of_no_marks (h : ∀ marks ∈ dateMarks, ¬marks.Sublist cs) :
    readDate? cs = (readFloatChars? cs).bind Date.ofSerial? := by
  have hlayout : ∀ layout ∈ dateLayouts ++ dateTimeLayouts, readLayout? cs layout = none := by
    intro layout hlayout
    rw [Option.eq_none_iff_forall_ne_some]
    intro d hd
    obtain ⟨g, hg, -⟩ := Option.bind_eq_some_iff.mp hd
    obtain ⟨marks, hmarks, hsub⟩ := exists_dateMarks layout hlayout
    exact h marks hmarks (hsub.trans (sublist_of_takeParts? hg))
  have hdates : dateLayouts.findSome? (readLayout? cs) = none :=
    List.findSome?_eq_none_iff.mpr fun layout hl => hlayout layout (List.mem_append_left _ hl)
  have hdateTimes : dateTimeLayouts.findSome? (readLayout? cs) = none :=
    List.findSome?_eq_none_iff.mpr fun layout hl => hlayout layout (List.mem_append_right _ hl)
  have htimestamp : readTimestamp? cs = none := by
    rw [Option.eq_none_iff_forall_ne_some]
    intro d hd
    exact h _ List.mem_cons_self (sublist_of_readTimestamp? hd)
  rw [readDate?, hdates, htimestamp, hdateTimes]
  rfl

end TableImport
