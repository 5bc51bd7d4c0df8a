import TableImport.Proofs.Row.Obtained
import TableImport.Row.Engine

/-! The documents of a row on the way: after its rules, and after each computed field. -/
namespace TableImport.Engine
variable {e : Engine} {header row : Row} {d : Documents} {k : Nat}

/-- The documents of a row when so many of the computed fields are done. There are none for a
blank row, nor for one that the rules reject. -/
inductive Stage (e : Engine) (header : Header) (row : Row) : Nat → Documents → Prop where
  | start {o : Obtained} (hrow : row.isBlank = false)
      (hrules : Obtained.none.addAll e.period header row e.rules = .ok o)
      (hsome : o.isEmpty = false) : Stage e header row 0 o.booked
  | step {k : Nat} {d : Documents} {c : CompiledField} (h : Stage e header row k d)
      (hc : e.computed[k]? = some c) : Stage e header row (k + 1) (d.addComputed c)

theorem mapRow_eq_accepted_iff {header : Header} :
    e.mapRow header row = .accepted d ↔ row.isBlank = false ∧
      ∃ o, Obtained.none.addAll e.period header row e.rules = .ok o ∧ o.isEmpty = false ∧
        d = e.computed.foldl Documents.addComputed o.booked := by
  unfold mapRow
  cases row.isBlank with
  | true => simp
  | false =>
    cases Obtained.none.addAll e.period header row e.rules with
    | error name => simp
    | ok o =>
      constructor
      · intro h
        simp only [Bool.false_eq_true, if_false] at h
        split at h
        · cases h
        · next hsome =>
          exact ⟨rfl, o, rfl, by simpa using hsome, (RowOutcome.accepted.inj h).symm⟩
      · rintro ⟨-, o', ho, hsome, rfl⟩
        obtain rfl := Except.ok.inj ho
        simp [hsome]

theorem stage_iff {header : Header} :
    e.Stage header row k d ↔ row.isBlank = false ∧ k ≤ e.computed.length ∧
      ∃ o, Obtained.none.addAll e.period header row e.rules = .ok o ∧ o.isEmpty = false ∧
        d = (e.computed.take k).foldl Documents.addComputed o.booked := by
  constructor
  · intro h
    induction h with
    | @start o hrow hrules hsome => exact ⟨hrow, Nat.zero_le _, o, hrules, hsome, rfl⟩
    | @step k d c _ hc ih =>
      obtain ⟨hrow, -, o, hrules, hsome, rfl⟩ := ih
      obtain ⟨hk, -⟩ := List.getElem?_eq_some_iff.mp hc
      refine ⟨hrow, hk, o, hrules, hsome, ?_⟩
      rw [List.take_add_one, hc, List.foldl_append]
      rfl
  · rintro ⟨hrow, hk, o, hrules, hsome, rfl⟩
    induction k with
    | zero => exact .start hrow hrules hsome
    | succ k ih =>
      have hc := List.getElem?_eq_getElem hk
      rw [List.take_add_one, hc, List.foldl_append]
      exact .step (ih (Nat.le_of_lt hk)) hc

/-- A row is accepted with the documents of its last stage. -/
theorem mapRow_eq_accepted_iff_stage {header : Header} :
    e.mapRow header row = .accepted d ↔ e.Stage header row e.computed.length d := by
  rw [mapRow_eq_accepted_iff, stage_iff, List.take_length]
  simp

theorem runs_of_accepted (h : e.mapRow (Header.ofRow header) row = .accepted d) :
    ∃ o, Obtained.Runs e.period header row .none e.rules o ∧
      d = e.computed.foldl Documents.addComputed o.booked := by
  obtain ⟨-, o, hrules, -, hd⟩ := mapRow_eq_accepted_iff.mp h
  exact ⟨o, Obtained.runs_of_addAll hrules, hd⟩

end TableImport.Engine
