import TableImport.Proofs.Table.Records
import TableImport.Proofs.Text.Bytes

/-! Tables that are written as delimited text and read back. -/
namespace TableImport

/-- A row as delimited text keeps it: the texts of its cells, and one empty cell for none. -/
def Row.asText : Row → Row
  | [] => [.empty]
  | row => row.map fun c => Cell.ofText c.display

namespace Csv
variable {d : Dialect}

/-- The texts of a row's cells. -/
def rowFields (row : Row) : Record := row.map fun c => bytesOf c.display

theorem rowOf?_rowFields (isHeader : Bool) (row : Row) :
    rowOf? ⟨d, false, false⟩ isHeader (rowFields row) =
      some (row.map fun c => Cell.ofText c.display) := by
  induction row with
  | nil => rfl
  | cons c row ih =>
    unfold rowOf? at ih ⊢
    rw [rowFields, List.map_cons, List.mapM_cons, textOf?_bytesOf, ← rowFields, ih]
    rfl

theorem rowOf?_readBack (isHeader : Bool) (row : Row) :
    rowOf? ⟨d, false, false⟩ isHeader (readBack (rowFields row)) = some row.asText := by
  cases row with
  | nil =>
    have hempty : readBack (rowFields []) = rowFields [.empty] := by
      simp [readBack, rowFields, bytesOf_eq, Cell.display, Cell.text?]
    rw [hempty]
    exact rowOf?_rowFields isHeader [.empty]
  | cons c row => exact rowOf?_rowFields isHeader (c :: row)

/-- The written table starts with the mark of the byte order only if its first cell does. -/
theorem dropByteOrderMark_write (hdelimiter : d.delimiter < 128) (hquote : d.quote < 128)
    (lineEnd : LineEnd) (table : Table)
    (hmark : ∀ row c, table.head? = some row → row.head? = some c →
      c.display.toList.head? ≠ some byteOrderMark) :
    dropByteOrderMark (write ⟨d, lineEnd⟩ table) = write ⟨d, lineEnd⟩ table := by
  apply dropByteOrderMark_eq
  intro tail hstart
  have hascii : ∀ b : UInt8, b < 128 → ∀ bs, b :: bs ≠ 0xEF :: 0xBB :: 0xBF :: tail := by
    rintro b hb bs h
    obtain ⟨rfl, -⟩ := List.cons.inj h
    exact absurd hb (by decide)
  cases table with
  | nil => cases hstart
  | cons row rows =>
    have hwrite : write ⟨d, lineEnd⟩ (row :: rows) =
        writeRecord d (rowFields row) ++ (lineEnd.bytes ++ write ⟨d, lineEnd⟩ rows) := by
      simp [write, writeRecords, rowFields]
    rw [hwrite] at hstart
    rcases writeRecord_start d (rowFields row) with ⟨bs, h⟩ | ⟨bs, h⟩ | ⟨f, fs, bs, hfields, hne, h⟩
    · rw [h, List.cons_append] at hstart
      exact hascii _ hquote _ hstart
    · rw [h, List.cons_append] at hstart
      exact hascii _ hdelimiter _ hstart
    · obtain ⟨c, cells, rfl, rfl, -⟩ := List.map_eq_cons_iff.mp hfields
      rw [h, List.append_assoc] at hstart
      exact hmark _ c rfl rfl (head?_of_byteOrderMark hne hstart)

/-- A written table is read back record by record. -/
theorem readRecords_write (hdistinct : d.Distinct) (hdelimiter : d.delimiter < 128)
    (hquote : d.quote < 128) (lineEnd : LineEnd) (table : Table)
    (hmark : ∀ row c, table.head? = some row → row.head? = some c →
      c.display.toList.head? ≠ some byteOrderMark) :
    readRecords d (write ⟨d, lineEnd⟩ table) = (table.map rowFields).map readBack := by
  rw [readRecords, dropByteOrderMark_write hdelimiter hquote lineEnd table hmark]
  exact records_writeRecords hdistinct lineEnd (table.map rowFields)

/-- Records that are those of a table are read as the table of its cells' texts. -/
theorem read?_of_readRecords {bs : Bytes} {table : Table}
    (h : readRecords d bs = (table.map rowFields).map readBack) :
    read? ⟨d, false, false⟩ bs = some (table.map Row.asText) := by
  have hrows : ∀ rows : Table, ((rows.map rowFields).map readBack).mapM
      (rowOf? ⟨d, false, false⟩ false) = some (rows.map Row.asText) := by
    intro rows
    induction rows with
    | nil => rfl
    | cons row rows ih =>
      simp only [List.map_cons, List.mapM_cons, rowOf?_readBack, ih]
      rfl
  unfold read?
  rw [h]
  cases table with
  | nil => rfl
  | cons row rows =>
    simp only [List.map_cons, rowOf?_readBack, hrows]
    rfl

/-- A table that is written and read in the same dialect is the table of its cells' texts. -/
theorem read?_write (d : Dialect) (lineEnd : LineEnd) (table : Table) (hdistinct : d.Distinct)
    (hdelimiter : d.delimiter < 128) (hquote : d.quote < 128)
    (hmark : ∀ row c, table.head? = some row → row.head? = some c →
      c.display.toList.head? ≠ some '\uFEFF') :
    read? ⟨d, false, false⟩ (write ⟨d, lineEnd⟩ table) = some (table.map Row.asText) := by
  have hrecords := readRecords_write hdistinct hdelimiter hquote lineEnd table hmark
  exact read?_of_readRecords hrecords

/-- Quotes, delimiters and line ends in a cell, rows of different lengths and one without cells. -/
theorem read?_write_ragged :
    (⟨59, 39⟩ : Dialect).Distinct ∧ (59 : UInt8) < 128 ∧ (39 : UInt8) < 128 ∧
      read? ⟨⟨59, 39⟩, false, false⟩
          (write ⟨⟨59, 39⟩, .crlf⟩ [[.text "it's; \"so\"\r\n", .empty], [], [.bool true]]) =
        some [[.text "it's; \"so\"\r\n", .empty], [.empty], [.text "true"]] := by
  have hdistinct : (⟨59, 39⟩ : Dialect).Distinct := ⟨by decide, by decide, by decide⟩
  refine ⟨hdistinct, by decide, by decide, ?_⟩
  apply read?_write ⟨59, 39⟩ .crlf _ hdistinct (by decide) (by decide)
  intro row c hrow hc
  obtain rfl := Option.some.inj hrow
  obtain rfl := Option.some.inj hc
  decide

end Csv
end TableImport
