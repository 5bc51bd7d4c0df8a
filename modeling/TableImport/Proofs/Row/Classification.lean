import TableImport.Proofs.Row.Obtained
import TableImport.Row.Engine

/-! When a row is accepted, and for what it is rejected. -/
namespace TableImport

/-- The first rule, in their order, that fails on a row. -/
def FirstFailure (header row : Row) (rules : List Rule) (r : Rule) : Prop :=
  ∃ before after, rules = before ++ r :: after ∧ r.Fails header row ∧
    ∀ s ∈ before, ¬s.Fails header row

namespace FirstFailure
variable {header row : Row} {rules : List Rule} {r s : Rule}

theorem head (h : r.Fails header row) : FirstFailure header row (r :: rules) r :=
  ⟨[], rules, rfl, h, by simp⟩

theorem cons (h : FirstFailure header row rules r) (hs : ¬s.Fails header row) :
    FirstFailure header row (s :: rules) r := by
  obtain ⟨before, after, rfl, hr, hbefore⟩ := h
  refine ⟨s :: before, after, rfl, hr, ?_⟩
  intro t ht
  rcases List.mem_cons.mp ht with rfl | ht
  · exact hs
  · exact hbefore t ht

theorem exists_fails (h : FirstFailure header row rules r) :
    ∃ s ∈ rules, s.Fails header row := by
  obtain ⟨before, after, rfl, hr, -⟩ := h
  exact ⟨r, by simp, hr⟩

end FirstFailure

namespace Obtained
variable {period : PricePeriod} {header row : Row}

theorem isEmpty_store (o : Obtained) (c : Collection) (path : String) (v : Json) :
    ({ o with documents := o.documents.store c path v } : Obtained).isEmpty = false := by
  cases c with
  | primary => simp [isEmpty, Documents.store, Document.isEmpty_setPath]
  | secondary => simp [isEmpty, Documents.store, Document.isEmpty_setPath]

theorem isEmpty_of_adds {o o' : Obtained} {r : Rule}
    (h : Adds period header row o r (.ok o')) :
    ¬r.Fails header row ∧
      (o'.isEmpty = true ↔ o.isEmpty = true ∧ ¬r.Obtains header row) := by
  cases h with
  | books hfails hkind hbooks =>
    have hobtains : r.Obtains header row := .inl ⟨_, hbooks⟩
    refine ⟨hfails, ?_⟩
    simp [isEmpty, hobtains]
  | stores hfails hstores =>
    have hobtains : r.Obtains header row := .inr ⟨_, hstores⟩
    refine ⟨hfails, ?_⟩
    simp [isEmpty_store, hobtains]
  | nothing hfails hobtains =>
    refine ⟨hfails, ?_⟩
    simp [hobtains]

/-- A run without failures leaves nothing only where no rule obtains a value. -/
theorem isEmpty_of_runs {rules : List Rule} {o o' : Obtained}
    (h : Runs period header row o rules o') :
    (∀ r ∈ rules, ¬r.Fails header row) ∧
      (o'.isEmpty = true ↔ o.isEmpty = true ∧ ∀ r ∈ rules, ¬r.Obtains header row) := by
  induction h with
  | nil => simp
  | cons hadds _ ih =>
    obtain ⟨hfails, hempty⟩ := isEmpty_of_adds hadds
    obtain ⟨hrest, hall⟩ := ih
    constructor
    · intro s hs
      rcases List.mem_cons.mp hs with rfl | hs
      · exact hfails
      · exact hrest s hs
    · rw [hall, hempty, and_assoc, List.forall_mem_cons]

theorem firstFailure_of_addAll {rules : List Rule} {o : Obtained} {name : String}
    (h : o.addAll period (Header.ofRow header) row rules = .error name) :
    ∃ r, FirstFailure header row rules r ∧ r.header = name := by
  induction rules generalizing o with
  | nil => cases h
  | cons r rest ih =>
    have hadds : Adds period header row o r (o.add period (Header.ofRow header) row r) := adds o r
    rw [addAll] at h
    cases hadd : o.add period (Header.ofRow header) row r with
    | error name' =>
      rw [hadd] at h hadds
      cases h
      cases hadds with
      | fails hfails => exact ⟨r, .head hfails, rfl⟩
    | ok o₁ =>
      rw [hadd] at h hadds
      obtain ⟨s, hfirst, hname⟩ := ih h
      exact ⟨s, hfirst.cons (isEmpty_of_adds hadds).1, hname⟩

end Obtained

namespace Engine

/-- The three outcomes of a row that is not blank, with the condition for each. -/
inductive Classified (e : Engine) (header row : Row) : RowOutcome → Prop where
  | missing {r} (h : FirstFailure header row e.rules r) :
      Classified e header row (.rejected (.missingRequired r.header))
  | noData (hfails : ∀ r ∈ e.rules, ¬r.Fails header row)
      (h : ∀ r ∈ e.rules, ¬r.Obtains header row) : Classified e header row (.rejected .noData)
  | accepted {d} (hfails : ∀ r ∈ e.rules, ¬r.Fails header row)
      (h : ∃ r ∈ e.rules, r.Obtains header row) : Classified e header row (.accepted d)

theorem mapRow_classified (e : Engine) (header : Row) {row : Row} (hrow : row.isBlank = false) :
    Classified e header row (e.mapRow (Header.ofRow header) row) := by
  simp only [mapRow, hrow, Bool.false_eq_true, if_false]
  cases hrun : Obtained.none.addAll e.period (Header.ofRow header) row e.rules with
  | error name =>
    obtain ⟨r, hfirst, rfl⟩ := Obtained.firstFailure_of_addAll hrun
    exact .missing hfirst
  | ok o =>
    obtain ⟨hfails, hempty⟩ := Obtained.isEmpty_of_runs (Obtained.runs_of_addAll hrun)
    have hstart : Obtained.none.isEmpty = true := rfl
    simp only
    by_cases hdata : o.isEmpty = true
    · rw [if_pos hdata]
      exact .noData hfails (hempty.mp hdata).2
    · rw [if_neg hdata]
      refine .accepted hfails ?_
      by_contra hobtains
      apply hdata
      exact hempty.mpr ⟨hstart, fun r hr h => hobtains ⟨r, hr, h⟩⟩

/-- Rows are rejected for a rule without a value or for want of data. -/
theorem why_of_mapRow {e : Engine} {header row : Row} {why : Rejection}
    (h : e.mapRow (Header.ofRow header) row = .rejected why) :
    (∃ r ∈ e.rules, why = .missingRequired r.header) ∨ why = .noData := by
  have hrow : row.isBlank = false := by
    by_contra hblank
    rw [mapRow, if_pos ((Bool.not_eq_false _).mp hblank)] at h
    cases h
  have hclass := mapRow_classified e header hrow
  rw [h] at hclass
  cases hclass with
  | missing hfirst =>
    obtain ⟨before, after, hrules, -, -⟩ := hfirst
    exact .inl ⟨_, by simp [hrules], rfl⟩
  | noData => exact .inr rfl

/-- The row is rejected, with this reason and this field to blame. -/
def Rejects (e : Engine) (header row : Row) (reason : String) (field? : Option String) : Prop :=
  ∃ why, e.mapRow (Header.ofRow header) row = .rejected why ∧ why.reason = reason ∧
    why.header? = field?

theorem reason_ne (name : String) :
    (Rejection.missingRequired name).reason ≠ Rejection.noData.reason := by
  show "missing required field" ≠ "empty row or no valid data"
  decide

variable {e : Engine} {header row : Row}

theorem rejects_missing_iff (hrow : row.isBlank = false) :
    (∃ field?, e.Rejects header row "missing required field" field?) ↔
      ∃ r ∈ e.rules, r.Fails header row := by
  have hclass := mapRow_classified e header hrow
  unfold Rejects
  generalize e.mapRow (Header.ofRow header) row = outcome at hclass ⊢
  cases hclass with
  | missing hfirst => exact iff_of_true ⟨_, _, rfl, rfl, rfl⟩ hfirst.exists_fails
  | noData hfails =>
    refine iff_of_false ?_ fun ⟨r, hr, h⟩ => hfails r hr h
    rintro ⟨field?, why, hwhy, hreason, -⟩
    cases hwhy
    exact reason_ne "" hreason.symm
  | accepted hfails =>
    refine iff_of_false ?_ fun ⟨r, hr, h⟩ => hfails r hr h
    rintro ⟨field?, why, hwhy, -⟩
    cases hwhy

theorem firstFailure_of_rejects {field? : Option String} (hrow : row.isBlank = false)
    (h : e.Rejects header row "missing required field" field?) :
    ∃ r, FirstFailure header row e.rules r ∧ field? = some r.header := by
  have hclass := mapRow_classified e header hrow
  obtain ⟨why, hwhy, hreason, rfl⟩ := h
  rw [hwhy] at hclass
  cases hclass with
  | missing hfirst => exact ⟨_, hfirst, rfl⟩
  | noData => exact absurd hreason.symm (reason_ne "")

theorem rejects_noData_iff {field? : Option String} (hrow : row.isBlank = false) :
    e.Rejects header row "empty row or no valid data" field? ↔ field? = none ∧
      (∀ r ∈ e.rules, ¬r.Fails header row) ∧ ∀ r ∈ e.rules, ¬r.Obtains header row := by
  have hclass := mapRow_classified e header hrow
  unfold Rejects
  generalize e.mapRow (Header.ofRow header) row = outcome at hclass ⊢
  cases hclass with
  | missing hfirst =>
    obtain ⟨r, hr, hfails⟩ := hfirst.exists_fails
    refine iff_of_false ?_ fun h => h.2.1 r hr hfails
    rintro ⟨why, hwhy, hreason, -⟩
    cases hwhy
    exact reason_ne _ hreason
  | noData hfails hobtains =>
    constructor
    · rintro ⟨why, hwhy, -, rfl⟩
      cases hwhy
      exact ⟨rfl, hfails, hobtains⟩
    · rintro ⟨rfl, -⟩
      exact ⟨_, rfl, rfl, rfl⟩
  | accepted hfails hobtains =>
    obtain ⟨r, hr, h⟩ := hobtains
    refine iff_of_false ?_ fun hnone => hnone.2.2 r hr h
    rintro ⟨why, hwhy, -⟩
    cases hwhy

theorem accepts_iff (hrow : row.isBlank = false) :
    (∃ d, e.mapRow (Header.ofRow header) row = .accepted d) ↔
      (∀ r ∈ e.rules, ¬r.Fails header row) ∧ ∃ r ∈ e.rules, r.Obtains header row := by
  have hclass := mapRow_classified e header hrow
  generalize e.mapRow (Header.ofRow header) row = outcome at hclass ⊢
  cases hclass with
  | missing hfirst =>
    obtain ⟨r, hr, hfails⟩ := hfirst.exists_fails
    refine iff_of_false ?_ fun h => h.1 r hr hfails
    rintro ⟨d, hd⟩
    cases hd
  | noData hfails hobtains =>
    refine iff_of_false ?_ fun ⟨_, r, hr, h⟩ => hobtains r hr h
    rintro ⟨d, hd⟩
    cases hd
  | accepted hfails hobtains => exact iff_of_true ⟨_, rfl⟩ ⟨hfails, hobtains⟩

/-- A row that is not blank is rejected for a missing field if a required rule fails on it, and the
field is that of the first one; else for want of data if no rule obtains a value from it; else it
is accepted. -/
theorem mapRow_classification (e : Engine) (header row : Row) (hrow : row.isBlank = false) :
    ((∃ field?, e.Rejects header row "missing required field" field?) ↔
      ∃ r ∈ e.rules, r.Fails header row) ∧
    (∀ field?, e.Rejects header row "missing required field" field? →
      ∃ r, FirstFailure header row e.rules r ∧ field? = some r.header) ∧
    (∀ field?, e.Rejects header row "empty row or no valid data" field? ↔ field? = none ∧
      (∀ r ∈ e.rules, ¬r.Fails header row) ∧ ∀ r ∈ e.rules, ¬r.Obtains header row) ∧
    ((∃ d, e.mapRow (Header.ofRow header) row = .accepted d) ↔
      (∀ r ∈ e.rules, ¬r.Fails header row) ∧ ∃ r ∈ e.rules, r.Obtains header row) := by
  refine ⟨rejects_missing_iff hrow, ?_, ?_, accepts_iff hrow⟩
  · intro field? h
    exact firstFailure_of_rejects hrow h
  · intro field?
    exact rejects_noData_iff hrow

/-- Funds with a name, which they must have, and a unit price. -/
def funds : Engine :=
  .ofParts [{ header := "Name", path := "name", required := true }, .ofPrice "Unit" "unit"] []
    { snapshotDate := ⟨2024, 1, 31, by decide⟩ } ⟨2024, 1⟩

theorem mapRow_classification_unnamed : Row.isBlank [.text " ", .number 5] = false ∧
    ∃ field?, funds.Rejects [.text "Name", .text "Unit"] [.text " ", .number 5]
      "missing required field" field? := by
  have hrow : Row.isBlank [.text " ", .number 5] = false := by decide
  refine ⟨hrow, (mapRow_classification funds [.text "Name", .text "Unit"] _ hrow).1.mpr ?_⟩
  refine ⟨{ header := "Name", path := "name", required := true }, by simp [funds, ofParts], rfl,
    .inr ⟨by simp [Rule.IsPrice], rfl, fun c hunder => .inl ?_⟩⟩
  have hname : CellUnder [.text "Name", .text "Unit"] [.text " ", .number 5] "Name" (.text " ") :=
    ⟨0, ⟨_, rfl, rfl⟩, by simp, rfl⟩
  rw [hunder.unique hname]
  decide

end Engine
end TableImport
