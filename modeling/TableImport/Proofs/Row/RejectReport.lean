import TableImport.Proofs.Row.Accounting
import TableImport.Proofs.Table.RoundTrip
import TableImport.Proofs.Table.WholeCells
import TableImport.Row.Summary

/-! The report of the rejected rows, written as delimited text and read back. -/
namespace TableImport

theorem Cell.ofText_of_not_blank {s : String} (h : isBlankText s = false) :
    Cell.ofText s = .text s := by
  have hne : s.isEmpty = false := by
    rw [Bool.eq_false_iff, ne_eq, String.isEmpty_iff]
    rintro rfl
    cases h
  rw [Cell.ofText, hne]
  rfl

namespace RejectedRow
variable {r : RejectedRow}

/-- What is read of a row from the report: its position in digits, the reason, the header, if there
is one, and the texts of its cells. -/
def readBack (r : RejectedRow) : Row :=
  .text (toString r.index) :: .text r.why.reason :: r.why.header?.elim .empty Cell.ofText ::
    r.row.map fun c => Cell.ofText c.display

/-- The position goes through a number cell, which shows whole numbers in plain digits. -/
theorem asText_report (hindex : r.index < 10 ^ 15) (hreason : isBlankText r.why.reason = false) :
    r.report.asText = r.readBack := by
  have hposition : Cell.ofText (Cell.display (.number (Binary64.ofInt r.index))) =
      .text (toString r.index) := by
    have hnumber : numberText (Binary64.ofInt r.index) = toString (r.index : Int) :=
      numberText_ofInt (by omega)
    rw [Cell.display, Cell.text?, Option.getD_some, hnumber]
    exact Cell.ofText_of_not_blank (isBlankText_toString r.index)
  have hwhy : Cell.ofText (Cell.display (.text r.why.reason)) = .text r.why.reason :=
    Cell.ofText_of_not_blank hreason
  have hheader : Cell.ofText (r.why.header?.elim Cell.empty Cell.text).display =
      r.why.header?.elim .empty Cell.ofText := by
    cases r.why.header? <;> rfl
  show Cell.ofText _ :: Cell.ofText _ :: Cell.ofText _ :: _ = r.readBack
  rw [hposition, hwhy, hheader]
  rfl

end RejectedRow

namespace Engine
variable {e : Engine} {table : Table} {ids : IdSource} {r : RejectedRow}

theorem not_isBlankText_reason (hr : r ∈ (e.mapTable table ids).1.rejected) :
    isBlankText r.why.reason = false := by
  rcases why_of_mem_rejected hr with ⟨s, -, hwhy⟩ | hwhy
  · rw [hwhy]
    show isBlankText "missing required field" = false
    decide
  · rw [hwhy]
    decide

/-- From the written report of the rejected rows each of them is read back, in their order and
whatever stands in their cells. -/
theorem read?_write_rejectTable (e : Engine) (table : Table) (ids : IdSource)
    (hindex : ∀ r ∈ (e.mapTable table ids).1.rejected, r.index < 10 ^ 15) :
    Csv.read? { trim := false, detectNumbers := false }
        (Csv.write {} (e.mapTable table ids).1.rejectTable) =
      some ([.text "row", .text "reason", .text "field"] ::
        (e.mapTable table ids).1.rejected.map RejectedRow.readBack) := by
  have hrecords : Csv.readRecords {} (Csv.write {} (e.mapTable table ids).1.rejectTable) =
      ((e.mapTable table ids).1.rejectTable.map Csv.rowFields).map Csv.readBack := by
    apply Csv.readRecords_write ⟨by decide, by decide, by decide⟩ (by decide) (by decide)
    intro row c hrow hc
    obtain rfl := Option.some.inj hrow
    obtain rfl := Option.some.inj hc
    decide
  have hrows : (e.mapTable table ids).1.rejected.map (fun r => r.report.asText) =
      (e.mapTable table ids).1.rejected.map RejectedRow.readBack :=
    List.map_congr_left fun r hr =>
      RejectedRow.asText_report (hindex r hr) (not_isBlankText_reason hr)
  refine (Csv.read?_of_readRecords hrecords).trans ?_
  rw [← hrows, Output.rejectTable, List.map_cons, List.map_map]
  rfl

/-- Quotes, delimiters and line ends in rejected rows, which differ in length. -/
theorem read?_write_rejectTable_funds :
    let header : Row := [.text "Name", .text "Unit"]
    let out := (funds.mapTable
      [header, [.text " ", .text "1,5 \"x\"\r\n"], [], [.empty, .bool true, .text "", .text "y"]]
      (.sequential "id" 0)).1
    (∀ r ∈ out.rejected, r.index < 10 ^ 15) ∧
      Csv.read? { trim := false, detectNumbers := false } (Csv.write {} out.rejectTable) =
        some [[.text "row", .text "reason", .text "field"],
          [.text "1", .text "missing required field", .text "Name", .text " ",
            .text "1,5 \"x\"\r\n"],
          [.text "3", .text "missing required field", .text "Name", .empty, .text "true", .empty,
            .text "y"]] := by
  intro header out
  have hrejected : out.rejected =
      [⟨1, [.text " ", .text "1,5 \"x\"\r\n"], .missingRequired "Name"⟩,
        ⟨3, [.empty, .bool true, .text "", .text "y"], .missingRequired "Name"⟩] := by
    rfl
  have hindex : ∀ r ∈ out.rejected, r.index < 10 ^ 15 := by
    simp [hrejected]
  refine ⟨hindex, (read?_write_rejectTable funds _ _ hindex).trans ?_⟩
  show some (_ :: out.rejected.map RejectedRow.readBack) = _
  rw [hrejected]
  rfl

end Engine
end TableImport
