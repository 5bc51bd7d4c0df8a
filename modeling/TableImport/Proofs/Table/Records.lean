import Mathlib.Data.List.Basic
import TableImport.Table.Csv

/-! Reading what has been written: a field, a record, and records one after another. -/
namespace TableImport.Csv

/-- The delimiter and the quote can be told apart from each other and from line ends. -/
structure Dialect.Distinct (d : Dialect) : Prop where
  delimiter_ne_quote : d.delimiter ≠ d.quote
  delimiter_not_end : isEnd d.delimiter = false
  quote_not_end : isEnd d.quote = false

variable {d : Dialect} {record fields : Record} {field f rest : Bytes} {b e : UInt8} {p : Place}

namespace Dialect.Distinct

theorem ne_delimiter_of_isEnd (h : d.Distinct) (he : isEnd e = true) : e ≠ d.delimiter := by
  rintro rfl
  simp [h.delimiter_not_end] at he

theorem ne_quote_of_isEnd (h : d.Distinct) (he : isEnd e = true) : e ≠ d.quote := by
  rintro rfl
  simp [h.quote_not_end] at he

end Dialect.Distinct

/-! ### Fields -/

/-- Outside of quotes, a place at which a byte other than the quote adds to the field or ends it. -/
def Place.IsOpen (p : Place) : Prop := p = .fieldStart ∨ p = .plain ∨ p = .afterQuote

theorem step_of_isOpen (hp : p.IsOpen) (hquote : b ≠ d.quote) : step d p b = stepInField d b := by
  rcases hp with rfl | rfl | rfl
  · simp [step, hquote]
  · rfl
  · simp [step, hquote]

theorem needsQuotes_cons :
    needsQuotes d (b :: f) = false ↔
      (b ≠ d.delimiter ∧ b ≠ d.quote ∧ isEnd b = false) ∧ needsQuotes d f = false := by
  simp [needsQuotes, and_assoc]

/-- Bytes that need no quotes are kept as they are. -/
theorem records_plain (hp : p.IsOpen) (hf : needsQuotes d f = false) :
    ∃ q : Place, q.IsOpen ∧ ∀ field rest, records d p record field (f ++ rest) =
      records d q record (f.reverse ++ field) rest := by
  induction f generalizing p with
  | nil => exact ⟨p, hp, fun _ _ => rfl⟩
  | cons b f ih =>
    obtain ⟨⟨hdelimiter, hquote, hend⟩, hf⟩ := needsQuotes_cons.mp hf
    have hstep : step d p b = (.plain, .keep) := by
      simp [step_of_isOpen hp hquote, stepInField, hdelimiter, hend]
    obtain ⟨q, hq, hread⟩ := ih (.inr (.inl rfl)) hf
    refine ⟨q, hq, fun field rest => ?_⟩
    rw [List.cons_append, records, hstep]
    simpa using hread (b :: field) rest

/-- Inside of quotes every byte is kept, and of two quotes one. -/
theorem records_quoted (f : Bytes) :
    records d .quoted record field
        (f.flatMap (fun b => if b = d.quote then [b, b] else [b]) ++ d.quote :: rest) =
      records d .afterQuote record (f.reverse ++ field) rest := by
  induction f generalizing field with
  | nil => simp [records, step]
  | cons b f ih =>
    by_cases hquote : b = d.quote
    · simp [records, step, hquote, ih]
    · simp [records, step, hquote, ih]

/-- A written field leaves its bytes, to be ended by what follows. -/
theorem records_writeField (d : Dialect) (record : Record) (f : Bytes) :
    ∃ q : Place, q.IsOpen ∧ ∀ rest, records d .fieldStart record [] (writeField d f ++ rest) =
      records d q record f.reverse rest := by
  unfold writeField
  cases hf : needsQuotes d f with
  | false =>
    obtain ⟨q, hq, hread⟩ := records_plain (.inl rfl) hf
    exact ⟨q, hq, fun rest => by simpa using hread [] rest⟩
  | true =>
    refine ⟨.afterQuote, .inr (.inr rfl), fun rest => ?_⟩
    have hquoted : records d .quoted record []
        (f.flatMap (fun b => if b = d.quote then [b, b] else [b]) ++ d.quote :: rest) =
          records d .afterQuote record (f.reverse ++ []) rest := records_quoted f
    simpa [enclose, records, step] using hquoted

theorem writeField_eq (d : Dialect) (f : Bytes) :
    (∃ bs, writeField d f = d.quote :: bs) ∨ needsQuotes d f = false ∧ writeField d f = f := by
  unfold writeField
  split
  · exact .inl ⟨_, rfl⟩
  · next hplain => exact .inr ⟨by simpa using hplain, rfl⟩

/-! ### Records -/

/-- The fields of a record between delimiters. -/
def line (d : Dialect) (fields : Record) : Bytes :=
  [d.delimiter].intercalate (fields.map (writeField d))

@[simp] theorem line_singleton (d : Dialect) (f : Bytes) : line d [f] = writeField d f := by
  simp [line, List.intercalate]

theorem line_cons_cons (d : Dialect) (f g : Bytes) (fields : Record) :
    line d (f :: g :: fields) = writeField d f ++ d.delimiter :: line d (g :: fields) := by
  simp [line, List.intercalate]

/-- After the first field of a line comes a delimiter, if anything. -/
theorem exists_line_cons (d : Dialect) (f : Bytes) (fields : Record) :
    ∃ bs, line d (f :: fields) = writeField d f ++ bs ∧
      (bs = [] ∨ ∃ cs, bs = d.delimiter :: cs) := by
  cases fields with
  | nil => exact ⟨[], by simp, .inl rfl⟩
  | cons g fields => exact ⟨_, line_cons_cons d f g fields, .inr ⟨_, rfl⟩⟩

theorem records_line (h : d.Distinct) (he : isEnd e = true) (f : Bytes)
    (fields : Record) :
    records d .fieldStart record [] (line d (f :: fields) ++ e :: rest) =
      (record.reverse ++ f :: fields) :: records d .recordStart [] [] rest := by
  induction fields generalizing record f with
  | nil =>
    obtain ⟨q, hq, hread⟩ := records_writeField d record f
    have hstep : step d q e = (.recordStart, .endRecord) := by
      simp [step_of_isOpen hq (h.ne_quote_of_isEnd he), stepInField, h.ne_delimiter_of_isEnd he, he]
    rw [line_singleton, hread, records, hstep]
    simp
  | cons g fields ih =>
    obtain ⟨q, hq, hread⟩ := records_writeField d record f
    have hstep : step d q d.delimiter = (.fieldStart, .endField) := by
      simp [step_of_isOpen hq h.delimiter_ne_quote, stepInField]
    rw [line_cons_cons, List.append_assoc, hread, List.cons_append, records, hstep]
    simp only
    rw [ih]
    simp

/-- Reading passes over line ends at the start of a record; a written line has none there. -/
theorem isEnd_of_line_eq_cons (h : d.Distinct) {bs : Bytes} (hline : line d fields = b :: bs) :
    isEnd b = false := by
  cases fields with
  | nil => cases hline
  | cons f fields =>
    obtain ⟨after, hafter, hcases⟩ := exists_line_cons d f fields
    rw [hafter] at hline
    rcases writeField_eq d f with ⟨cs, hquoted⟩ | ⟨hplain, hsame⟩
    · rw [hquoted] at hline
      obtain ⟨rfl, -⟩ := List.cons.inj hline
      exact h.quote_not_end
    · rw [hsame] at hline
      cases f with
      | nil =>
        rcases hcases with rfl | ⟨cs, rfl⟩
        · cases hline
        · obtain ⟨rfl, -⟩ := List.cons.inj hline
          exact h.delimiter_not_end
      | cons c f =>
        obtain ⟨rfl, -⟩ := List.cons.inj hline
        exact (needsQuotes_cons.mp hplain).1.2.2

theorem records_recordStart (hb : isEnd b = false) :
    records d .recordStart record field (b :: rest) =
      records d .fieldStart record field (b :: rest) := by
  simp [records, step, hb]

theorem eq_of_line_eq_nil (hline : line d fields = []) : fields = [] ∨ fields = [[]] := by
  cases fields with
  | nil => exact .inl rfl
  | cons f fields =>
    cases fields with
    | nil =>
      rw [line_singleton] at hline
      rcases writeField_eq d f with ⟨bs, hquoted⟩ | ⟨-, hsame⟩
      · rw [hquoted] at hline
        cases hline
      · exact .inr (by rw [← hsame, hline])
    | cons g fields =>
      rw [line_cons_cons] at hline
      simp at hline

theorem writeRecord_eq (d : Dialect) (fields : Record) :
    writeRecord d fields = if line d fields = [] then enclose d [] else line d fields := rfl

/-- A written record starts with the quote, the delimiter or the bytes of its first field. -/
theorem writeRecord_start (d : Dialect) (fields : Record) :
    (∃ bs, writeRecord d fields = d.quote :: bs) ∨
      (∃ bs, writeRecord d fields = d.delimiter :: bs) ∨
      ∃ f fs bs, fields = f :: fs ∧ f ≠ [] ∧ writeRecord d fields = f ++ bs := by
  rw [writeRecord_eq]
  by_cases hempty : line d fields = []
  · rw [if_pos hempty]
    exact .inl ⟨_, rfl⟩
  · rw [if_neg hempty]
    cases fields with
    | nil => exact absurd rfl hempty
    | cons f fields =>
      obtain ⟨after, hafter, hcases⟩ := exists_line_cons d f fields
      rw [hafter] at hempty ⊢
      rcases writeField_eq d f with ⟨bs, hquoted⟩ | ⟨-, hsame⟩
      · exact .inl ⟨_, by rw [hquoted, List.cons_append]⟩
      · rw [hsame] at hempty ⊢
        cases f with
        | cons b f => exact .inr (.inr ⟨_, _, _, rfl, List.cons_ne_nil _ _, rfl⟩)
        | nil =>
          rcases hcases with rfl | ⟨bs, rfl⟩
          · exact absurd rfl hempty
          · exact .inr (.inl ⟨_, rfl⟩)

/-- The fields that are read from a written record: one without fields is read as an empty one. -/
def readBack (fields : Record) : Record := if fields = [] then [[]] else fields

theorem records_enclosed (h : d.Distinct) (he : isEnd e = true) (rest : Bytes) :
    records d .recordStart [] [] (enclose d [] ++ e :: rest) =
      [[]] :: records d .recordStart [] [] rest := by
  simp [enclose, records, step, stepInField, h.quote_not_end, h.ne_quote_of_isEnd he,
    h.ne_delimiter_of_isEnd he, he]

/-- A written record is read up to the line end that follows it. -/
theorem records_writeRecord (h : d.Distinct) (he : isEnd e = true)
    (fields : Record) (rest : Bytes) :
    records d .recordStart [] [] (writeRecord d fields ++ e :: rest) =
      readBack fields :: records d .recordStart [] [] rest := by
  rw [writeRecord_eq]
  cases hline : line d fields with
  | nil =>
    rw [if_pos rfl, records_enclosed h he]
    rcases eq_of_line_eq_nil hline with rfl | rfl <;> rfl
  | cons b bs =>
    have hend : isEnd b = false := isEnd_of_line_eq_cons h hline
    rw [if_neg (List.cons_ne_nil b bs), List.cons_append, records_recordStart hend,
      ← List.cons_append, ← hline]
    cases fields with
    | nil => cases hline
    | cons f fields => exact records_line h he f fields

/-- Written records are read one after another, whichever line ends stand behind them. -/
theorem records_writeRecords (h : d.Distinct) (lineEnd : LineEnd) (rs : List Record) :
    records d .recordStart [] [] (writeRecords d lineEnd.bytes rs) = rs.map readBack := by
  have hskip : ∀ rest, records d .recordStart [] [] (lineFeed :: rest) =
      records d .recordStart [] [] rest := by
    intro rest
    simp [records, step, isEnd]
  induction rs with
  | nil => rfl
  | cons fields rs ih =>
    have hwrite : writeRecords d lineEnd.bytes (fields :: rs) =
        writeRecord d fields ++ (lineEnd.bytes ++ writeRecords d lineEnd.bytes rs) := by
      simp [writeRecords]
    rw [hwrite, List.map_cons, ← ih]
    cases lineEnd with
    | lf => exact records_writeRecord h (by decide) fields _
    | crlf =>
      -- The line feed of a pair stands at the start of the next record and is passed over.
      exact (records_writeRecord h (by decide) fields _).trans (congrArg _ (hskip _))

end TableImport.Csv
