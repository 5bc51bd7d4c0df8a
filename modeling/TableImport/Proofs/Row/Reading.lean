import TableImport.Proofs.Config.Rules
import TableImport.Row.Reading

/-! Which rules obtain a value from a row, and which fail on it. -/
namespace TableImport

/-- The cell of a row under the first header cell with a text; there is none without such a column
or in a shorter row. -/
def CellUnder (header row : Row) (name : String) (c : Cell) : Prop :=
  ∃ i, (∃ h : Cell, header[i]? = some h ∧ h.text? = some name) ∧
    (∀ j : Nat, j < i → ∀ h : Cell, header[j]? = some h → h.text? ≠ some name) ∧ row[i]? = some c

theorem cell?_eq_some_iff {header row : Row} {name : String} {c : Cell} :
    (Header.ofRow header).cell? row name = some c ↔ CellUnder header row name c := by
  unfold Header.cell? CellUnder Header.ofRow
  rw [Option.bind_eq_some_iff]
  constructor
  · rintro ⟨i, hfound, hcell⟩
    obtain ⟨hi, hname, hfirst⟩ := List.findIdx?_eq_some_iff_getElem.mp hfound
    rw [List.length_map] at hi
    refine ⟨i, ⟨header[i], List.getElem?_eq_getElem hi, by simpa using hname⟩, ?_, hcell⟩
    intro j hj h hh
    obtain ⟨-, rfl⟩ := List.getElem?_eq_some_iff.mp hh
    simpa using hfirst j hj
  · rintro ⟨i, ⟨h, hh, hname⟩, hfirst, hcell⟩
    obtain ⟨hi, rfl⟩ := List.getElem?_eq_some_iff.mp hh
    refine ⟨i, List.findIdx?_eq_some_iff_getElem.mpr ⟨by simpa using hi, by simpa using hname, ?_⟩,
      hcell⟩
    intro j hj
    have hne := hfirst j hj header[j] (List.getElem?_eq_getElem (by omega))
    simpa using hne

theorem cell?_eq_none_iff {header row : Row} {name : String} :
    (Header.ofRow header).cell? row name = none ↔ ∀ c, ¬CellUnder header row name c := by
  simp only [← cell?_eq_some_iff]
  cases (Header.ofRow header).cell? row name <;> simp

theorem CellUnder.unique {header row : Row} {name : String} {c d : Cell}
    (hc : CellUnder header row name c) (hd : CellUnder header row name d) : c = d := by
  rw [← cell?_eq_some_iff] at hc hd
  exact Option.some.inj (hc.symm.trans hd)

namespace Cell

theorem coerceNumber_ne_missing (asPercentage : Bool) (c : Cell) :
    c.coerceNumber asPercentage ≠ .missing := by
  unfold coerceNumber
  split
  · simp
  · next a _ =>
    cases jsonNumber? (if asPercentage && a.percent then a.value / 100 else a.value) <;> simp

theorem coerce_eq_missing_iff {c : Cell} {f : CellFormat} :
    c.coerce f = .missing ↔ c.isBlank = true := by
  unfold coerce
  by_cases hblank : c.isBlank = true
  · simp [hblank]
  · rw [if_neg hblank]
    refine iff_of_false ?_ hblank
    cases f with
    | text =>
      cases c with
      | empty => exact absurd rfl hblank
      | bool | number | text => simp [text?]
    | number => exact coerceNumber_ne_missing false c
    | percentage => exact coerceNumber_ne_missing true c
    | date => cases h : c.date? <;> simp

end Cell

namespace Rule

/-- A price rule finds a number in its cell. -/
def Books (r : Rule) (header row : Row) (x : Float) : Prop :=
  r.IsPrice ∧ ∃ c, CellUnder header row r.header c ∧ c.number? = some x

/-- The cell of a rule that is none for prices has a value in the rule's format. -/
def Stores (r : Rule) (header row : Row) (v : Json) : Prop :=
  ¬r.IsPrice ∧ ∃ c, CellUnder header row r.header c ∧ c.coerce r.format = .value v

def Obtains (r : Rule) (header row : Row) : Prop :=
  (∃ x, r.Books header row x) ∨ ∃ v, r.Stores header row v

/-- A required price rule fails if its cell is absent or has no number; another required primary
rule if its cell is absent or blank, or cannot be read in a format other than that of dates. -/
def Fails (r : Rule) (header row : Row) : Prop :=
  r.required = true ∧
    (r.IsPrice ∧ (∀ c, CellUnder header row r.header c → c.number? = none) ∨
      ¬r.IsPrice ∧ r.collection = .primary ∧ ∀ c, CellUnder header row r.header c →
        c.isBlank = true ∨ r.format ≠ .date ∧ ∀ v, c.coerce r.format ≠ .value v)

/-- What a rule does with a row: its reading, with the condition for it. -/
inductive Reads (header row : Row) (r : Rule) : Reading → Prop where
  | price {kind x} (hkind : r.priceKind? = some kind) (h : r.Books header row x) :
      Reads header row r (.price kind x)
  | value {v} (h : r.Stores header row v) : Reads header row r (.value v)
  | failure (h : r.Fails header row) : Reads header row r .failure
  | nothing (hfails : ¬r.Fails header row) (h : ¬r.Obtains header row) :
      Reads header row r .nothing

variable {r : Rule} {header row : Row}

theorem not_fails_of_books {x : Float} (h : r.Books header row x) : ¬r.Fails header row := by
  obtain ⟨hprice, c, hunder, hnumber⟩ := h
  rintro ⟨-, ⟨-, hnone⟩ | ⟨hother, -⟩⟩
  · rw [hnone c hunder] at hnumber
    cases hnumber
  · exact hother hprice

theorem not_fails_of_stores {v : Json} (h : r.Stores header row v) : ¬r.Fails header row := by
  obtain ⟨hother, c, hunder, hvalue⟩ := h
  rintro ⟨-, ⟨hprice, -⟩ | ⟨-, -, hbad⟩⟩
  · exact hother hprice
  · rcases hbad c hunder with hblank | ⟨-, hnone⟩
    · rw [Cell.coerce_eq_missing_iff.mpr hblank] at hvalue
      cases hvalue
    · exact hnone v hvalue

theorem mustHave_iff : r.mustHave = true ↔ r.required = true ∧ r.collection = .primary := by
  simp [mustHave]

theorem reads_ite {fails : Bool} (hobtains : ¬r.Obtains header row)
    (hfails : r.Fails header row ↔ fails = true) :
    r.Reads header row (if fails then .failure else .nothing) := by
  cases fails with
  | true => exact .failure (hfails.mpr rfl)
  | false => exact .nothing (fun h => Bool.noConfusion (hfails.mp h)) hobtains

theorem reads_no_number (hprice : r.IsPrice)
    (hnone : ∀ c, CellUnder header row r.header c → c.number? = none) :
    r.Reads header row (if r.required then .failure else .nothing) := by
  apply reads_ite
  · rintro (⟨x, -, c, hunder, hnumber⟩ | ⟨v, hother, -⟩)
    · rw [hnone c hunder] at hnumber
      cases hnumber
    · exact hother hprice
  · constructor
    · exact And.left
    · intro hrequired
      exact ⟨hrequired, .inl ⟨hprice, hnone⟩⟩

/-- Without a value, a rule that must have one fails, except over a date that cannot be read. -/
theorem reads_no_value {fails : Bool} (hother : ¬r.IsPrice)
    (hnone : ∀ c, CellUnder header row r.header c → ∀ v, c.coerce r.format ≠ .value v)
    (hfails : fails = true ↔ r.mustHave = true ∧
      ∀ c, CellUnder header row r.header c → c.isBlank = true ∨ r.format ≠ .date) :
    r.Reads header row (if fails then .failure else .nothing) := by
  apply reads_ite
  · rintro (⟨x, hprice, -⟩ | ⟨v, -, c, hunder, hvalue⟩)
    · exact hother hprice
    · exact hnone c hunder v hvalue
  · rw [hfails, mustHave_iff]
    constructor
    · rintro ⟨hrequired, ⟨hprice, -⟩ | ⟨-, hprimary, hbad⟩⟩
      · exact absurd hprice hother
      · exact ⟨⟨hrequired, hprimary⟩, fun c hunder => (hbad c hunder).imp_right And.left⟩
    · rintro ⟨⟨hrequired, hprimary⟩, hbad⟩
      refine ⟨hrequired, .inr ⟨hother, hprimary, fun c hunder => ?_⟩⟩
      exact (hbad c hunder).imp_right fun hdate => ⟨hdate, hnone c hunder⟩

theorem reads (r : Rule) (header row : Row) :
    r.Reads header row (r.read ((Header.ofRow header).cell? row r.header)) := by
  unfold read
  cases hprice : r.price? with
  | some kind =>
    obtain ⟨hbooks, hkind⟩ := price?_eq_some_iff.mp hprice
    simp only
    cases hnumber : ((Header.ofRow header).cell? row r.header).bind Cell.number? with
    | some amount =>
      obtain ⟨c, hc, hamount⟩ := Option.bind_eq_some_iff.mp hnumber
      exact .price hkind ⟨hbooks, c, cell?_eq_some_iff.mp hc, hamount⟩
    | none =>
      refine reads_no_number hbooks fun c hunder => ?_
      rw [cell?_eq_some_iff.mpr hunder] at hnumber
      exact hnumber
  | none =>
    have hother := price?_eq_none_iff.mp hprice
    cases hcell : (Header.ofRow header).cell? row r.header with
    | none =>
      have habsent := cell?_eq_none_iff.mp hcell
      refine reads_no_value hother (fun c hunder => absurd hunder (habsent c)) ?_
      simp [habsent]
    | some c =>
      have hunder := cell?_eq_some_iff.mp hcell
      have honly : ∀ d, CellUnder header row r.header d → d = c :=
        fun d hd => hd.unique hunder
      simp only [Option.map_some]
      cases hcoerce : c.coerce r.format with
      | value v => exact .value ⟨hother, c, hunder, hcoerce⟩
      | missing =>
        have hblank := Cell.coerce_eq_missing_iff.mp hcoerce
        refine reads_no_value hother ?_ ?_
        · intro d hd v
          simp [honly d hd, hcoerce]
        · refine (and_iff_left fun d hd => ?_).symm
          exact .inl (honly d hd ▸ hblank)
      | invalid fault =>
        have hblank : c.isBlank ≠ true := fun h => by
          rw [Cell.coerce_eq_missing_iff.mpr h] at hcoerce
          cases hcoerce
        refine reads_no_value hother ?_ ?_
        · intro d hd v
          simp [honly d hd, hcoerce]
        · simp only [Bool.and_eq_true, bne_iff_ne, and_congr_right_iff]
          intro _
          constructor
          · exact fun hdate d _ => .inr hdate
          · exact fun hall => (hall c hunder).resolve_left hblank

end Rule
end TableImport
