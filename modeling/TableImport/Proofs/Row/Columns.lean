import Mathlib.Data.List.Nodup
import TableImport.Proofs.Row.Classification
import TableImport.Proofs.Row.Correspondence

/-! Tables with their columns in another order are mapped to the same documents: cells are found by
the names in the header, and no two columns have the same name. -/
namespace TableImport

namespace Row
variable {header row : Row} {columns : List Nat}

/-- The cells of a row in the given columns. -/
def reorder (columns : List Nat) (row : Row) : Row := columns.map fun i => row.getD i .empty

theorem reorder_range (row : Row) : row.reorder (List.range row.length) = row := by
  apply List.ext_getElem
  · simp [reorder]
  · intro i hi hi'
    simp [reorder, hi']

theorem reorder_perm (h : columns.Perm (List.range row.length)) :
    (row.reorder columns).Perm row := by
  have hmap : (row.reorder columns).Perm (row.reorder (List.range row.length)) := h.map _
  rwa [reorder_range] at hmap

/-- The cells stay under the header cells that they were under. -/
theorem zip_reorder_perm (hlength : row.length = header.length)
    (h : columns.Perm (List.range header.length)) :
    ((header.reorder columns).zip (row.reorder columns)).Perm (header.zip row) := by
  have hmap : ((header.reorder columns).zip (row.reorder columns)).Perm
      ((header.reorder (List.range header.length)).zip
        (row.reorder (List.range header.length))) := by
    unfold reorder
    rw [List.zip_map', List.zip_map']
    exact h.map _
  rwa [reorder_range, ← hlength, reorder_range] at hmap

end Row

/-- The texts of a header that are there differ. -/
def Row.HasDistinctTexts (header : Row) : Prop := (header.filterMap Cell.text?).Nodup

variable {header row : Row} {columns : List Nat} {name : String} {c : Cell}

/-- Where no two header cells have the same text, the first one with a text is the only one. -/
theorem cellUnder_iff_mem_zip (hnames : header.HasDistinctTexts) :
    CellUnder header row name c ↔ ∃ h : Cell, h.text? = some name ∧ (h, c) ∈ header.zip row := by
  constructor
  · rintro ⟨i, ⟨h, hh, hname⟩, -, hc⟩
    exact ⟨h, hname, List.mem_of_getElem? (List.getElem?_zip_eq_some.mpr ⟨hh, hc⟩)⟩
  · rintro ⟨h, hname, hmem⟩
    obtain ⟨i, hi⟩ := List.mem_iff_getElem?.mp hmem
    obtain ⟨hh, hc⟩ := List.getElem?_zip_eq_some.mp hi
    refine ⟨i, ⟨h, hh, hname⟩, ?_, hc⟩
    intro j hj h' hh' hname'
    obtain ⟨hi', rfl⟩ := List.getElem?_eq_some_iff.mp hh
    obtain ⟨hj', rfl⟩ := List.getElem?_eq_some_iff.mp hh'
    have hpairwise := List.pairwise_iff_getElem.mp (List.pairwise_filterMap.mp hnames)
    exact hpairwise j i hj' hi' hj name hname' name hname rfl

theorem cell?_reorder (hnames : header.HasDistinctTexts) (hlength : row.length = header.length)
    (h : columns.Perm (List.range header.length)) (name : String) :
    (Header.ofRow (header.reorder columns)).cell? (row.reorder columns) name =
      (Header.ofRow header).cell? row name := by
  have hnames' : (header.reorder columns).HasDistinctTexts :=
    ((Row.reorder_perm h).filterMap Cell.text?).nodup_iff.mpr hnames
  apply Option.ext
  intro c
  rw [cell?_eq_some_iff, cell?_eq_some_iff, cellUnder_iff_mem_zip hnames',
    cellUnder_iff_mem_zip hnames]
  simp only [(Row.zip_reorder_perm hlength h).mem_iff]

namespace Engine

theorem mapRow_reorder (e : Engine) (hnames : header.HasDistinctTexts)
    (hlength : row.length = header.length) (h : columns.Perm (List.range header.length)) :
    e.mapRow (Header.ofRow (header.reorder columns)) (row.reorder columns) =
      e.mapRow (Header.ofRow header) row := by
  have hblank : (row.reorder columns).isBlank = row.isBlank :=
    (Row.reorder_perm (hlength ▸ h)).all_eq
  have hread : ∀ r ∈ e.rules,
      r.read ((Header.ofRow (header.reorder columns)).cell? (row.reorder columns) r.header) =
        r.read ((Header.ofRow header).cell? row r.header) := by
    intro r _
    rw [cell?_reorder hnames hlength h]
  unfold mapRow
  rw [hblank, Obtained.addAll_congr hread]

/-- The order of the columns does not matter where all rows are as long as the header and the
header's texts differ: the documents and snapshots are the same, the same rows are rejected at the
same positions for the same reasons, and the same identifiers are taken. -/
theorem mapTable_reorder (e : Engine) (table : Table) (width : Nat)
    (hwidth : ∀ row ∈ table, row.length = width)
    (hnames : ∀ header ∈ table.head?, header.HasDistinctTexts) (columns : List Nat)
    (hcolumns : columns.Perm (List.range width)) (ids : IdSource) :
    let run := e.mapTable table ids
    let run' := e.mapTable (table.map (Row.reorder columns)) ids
    run'.1.accepted = run.1.accepted ∧ run'.1.snapshots = run.1.snapshots ∧
      run'.1.rejected = run.1.rejected.map (fun r => { r with row := r.row.reorder columns }) ∧
      run'.2 = run.2 := by
  cases table with
  | nil => exact ⟨rfl, rfl, rfl, rfl⟩
  | cons header rows =>
    obtain ⟨hheader, hrows⟩ := List.forall_mem_cons.mp hwidth
    subst hheader
    have houtcomes : List.Forall₂ (fun row row' => row' = row.reorder columns ∧
        (e.mapRow (Header.ofRow header) row).Corresponds Eq Eq e e
          (e.mapRow (Header.ofRow (header.reorder columns)) row'))
        rows (rows.map (Row.reorder columns)) := by
      rw [List.forall₂_map_right_iff, List.forall₂_same]
      intro row hrow
      rw [e.mapRow_reorder (hnames header rfl) (hrows row hrow) hcolumns]
      exact ⟨rfl, .refl e _⟩
    obtain ⟨hout, hafter⟩ := mapRows_corresponds houtcomes 1 ids
    refine ⟨?_, hout.snapshots.symm, ?_, hafter.symm⟩
    · have haccepted := hout.accepted
      rw [List.forall₂_eq_eq_eq] at haccepted
      exact haccepted.symm
    · exact RejectedRow.eq_map_of_corresponds hout.rejected

/-- Two funds, one of them without its name, between columns that have none. -/
def fundTable : Table :=
  [[.text "Name", .empty, .text "Unit", .empty], [.text "Alpha", .bool true, .number 5, .empty],
    [.text " ", .empty, .number 7, .text "n/a"]]

theorem mapTable_reorder_funds : (∀ row ∈ fundTable, row.length = 4) ∧
    (∀ header ∈ fundTable.head?, header.HasDistinctTexts) ∧
    [2, 3, 1, 0].Perm (List.range 4) ∧
    let out := (funds.mapTable fundTable (.sequential "s" 0)).1
    let out' := (funds.mapTable (fundTable.map (Row.reorder [2, 3, 1, 0])) (.sequential "s" 0)).1
    out'.accepted = out.accepted ∧ out'.rejected =
      out.rejected.map (fun r => { r with row := r.row.reorder [2, 3, 1, 0] }) := by
  have hwidth : ∀ row ∈ fundTable, row.length = 4 := by simp [fundTable]
  have hnames : ∀ header ∈ fundTable.head?, header.HasDistinctTexts := by
    intro header hheader
    obtain rfl := Option.mem_some_iff.mp hheader
    show ["Name", "Unit"].Nodup
    decide
  have hcolumns : [2, 3, 1, 0].Perm (List.range 4) := by decide
  obtain ⟨haccepted, -, hrejected, -⟩ :=
    mapTable_reorder funds fundTable 4 hwidth hnames _ hcolumns (.sequential "s" 0)
  exact ⟨hwidth, hnames, hcolumns, haccepted, hrejected⟩

end Engine
end TableImport
