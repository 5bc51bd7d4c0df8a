import TableImport.Proofs.Row.Reading

/-! What one rule adds to what the rules before it have obtained, and runs of rules. -/
namespace TableImport

namespace Documents

def ofCollection (d : Documents) : Collection → Document
  | .primary => d.primary
  | .secondary => d.secondary

/-- The documents with a value at a path of one of them. -/
def store (d : Documents) (c : Collection) (path : String) (v : Json) : Documents :=
  match c with
  | .primary => { d with primary := d.primary.setPath path v }
  | .secondary => { d with secondary := d.secondary.setPath path v }

@[simp] theorem ofCollection_store_self (d : Documents) (c : Collection) (path : String)
    (v : Json) : (d.store c path v).ofCollection c = (d.ofCollection c).setPath path v := by
  cases c <;> rfl

theorem ofCollection_store_of_ne {c c' : Collection} (h : c' ≠ c) (d : Documents) (path : String)
    (v : Json) : (d.store c path v).ofCollection c' = d.ofCollection c' := by
  cases c <;> cases c' <;> first | rfl | exact absurd rfl h

/-- A computed field stores a number or does nothing. -/
theorem addComputed_cases (d : Documents) (c : CompiledField) :
    d.addComputed c = d ∨ ∃ x v, jsonNumber? x = some v ∧
      d.addComputed c = d.store c.field.collection c.field.path v := by
  unfold addComputed
  cases hv : (c.evaluate d).bind jsonNumber? with
  | none => exact .inl rfl
  | some v =>
    obtain ⟨x, -, hx⟩ := Option.bind_eq_some_iff.mp hv
    refine .inr ⟨x, v, hx, ?_⟩
    cases c.field.collection <;> rfl

end Documents

namespace Obtained

/-- Of the header and the row only what the rules read from them counts. -/
theorem addAll_congr {period : PricePeriod} {header header' : Header} {row row' : Row}
    {rules : List Rule}
    (h : ∀ r ∈ rules, r.read (header.cell? row r.header) = r.read (header'.cell? row' r.header))
    (o : Obtained) : o.addAll period header row rules = o.addAll period header' row' rules := by
  induction rules generalizing o with
  | nil => rfl
  | cons r rules ih =>
    obtain ⟨hread, hrest⟩ := List.forall_mem_cons.mp h
    have hadd : o.add period header row r = o.add period header' row' r := by
      unfold add
      rw [hread]
    rw [addAll, addAll, hadd]
    cases o.add period header' row' r with
    | error name => rfl
    | ok o => exact ih hrest o

/-- All that a rule can do. -/
inductive Adds (period : PricePeriod) (header row : Row) (o : Obtained) (r : Rule) :
    Except String Obtained → Prop where
  | fails (h : r.Fails header row) : Adds period header row o r (.error r.header)
  | books {kind x} (hfails : ¬r.Fails header row) (hkind : r.priceKind? = some kind)
      (h : r.Books header row x) :
      Adds period header row o r
        (.ok { o with prices := o.prices ++ [PriceRecord.ofMajor period kind x] })
  | stores {v} (hfails : ¬r.Fails header row) (h : r.Stores header row v) :
      Adds period header row o r
        (.ok { o with documents := o.documents.store r.collection r.path v })
  | nothing (hfails : ¬r.Fails header row) (h : ¬r.Obtains header row) :
      Adds period header row o r (.ok o)

variable {period : PricePeriod} {header row : Row}

theorem adds (o : Obtained) (r : Rule) :
    Adds period header row o r (o.add period (Header.ofRow header) row r) := by
  have hreads := r.reads header row
  unfold add
  generalize r.read ((Header.ofRow header).cell? row r.header) = reading at hreads ⊢
  cases hreads with
  | failure h => exact .fails h
  | nothing hfails h => exact .nothing hfails h
  | price hkind h => exact .books (Rule.not_fails_of_books h) hkind h
  | value h =>
    have hstores : Adds period header row o r
        (.ok { o with documents := o.documents.store r.collection r.path _ }) :=
      .stores (Rule.not_fails_of_stores h) h
    cases hc : r.collection with
    | primary => simpa [hc, Documents.store] using hstores
    | secondary => simpa [hc, Documents.store] using hstores

/-- A run of rules none of which fails. -/
inductive Runs (period : PricePeriod) (header row : Row) :
    Obtained → List Rule → Obtained → Prop where
  | nil (o : Obtained) : Runs period header row o [] o
  | cons {o o₁ o₂ : Obtained} {r : Rule} {rest : List Rule}
      (h : Adds period header row o r (.ok o₁)) (hrest : Runs period header row o₁ rest o₂) :
      Runs period header row o (r :: rest) o₂

theorem runs_of_addAll {rules : List Rule} {o o' : Obtained}
    (h : o.addAll period (Header.ofRow header) row rules = .ok o') :
    Runs period header row o rules o' := by
  induction rules generalizing o with
  | nil =>
    cases h
    exact .nil _
  | cons r rest ih =>
    have hadds : Adds period header row o r (o.add period (Header.ofRow header) row r) := adds o r
    rw [addAll] at h
    cases hadd : o.add period (Header.ofRow header) row r with
    | error name =>
      rw [hadd] at h
      cases h
    | ok o₁ =>
      rw [hadd] at h hadds
      exact .cons hadds (ih h)

end Obtained
end TableImport
