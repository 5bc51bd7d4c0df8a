import TableImport.Proofs.Document.PriceOrder
import TableImport.Proofs.Row.Accounting
import TableImport.Proofs.Row.Classification
import TableImport.Proofs.Row.Correspondence
import TableImport.Proofs.Row.Prices

/-! Rules in another order: where no path leads to another, they store the same values, and only
the prices are booked in the order of the rules. -/
namespace TableImport
open PriceRecord (slot slots)

/-! ### Documents -/

namespace Documents
variable {d d' : Documents}

/-- Documents of one row with their prices in different orders. There is one of each kind, so
neither computed fields nor snapshots see the difference. -/
structure Interchangeable (d d' : Documents) : Prop where
  primary : d.primary.SameUpToPriceOrder d'.primary
  secondary : d.secondary = d'.secondary
  kinds : (d.primary.prices.map (·.kind)).Nodup

namespace Interchangeable

theorem resolve_eq (h : d.Interchangeable d') : d.resolve = d'.resolve := by
  funext name
  unfold resolve
  simp only [h.primary.getNumber?_eq, h.primary.findPrice?_eq h.kinds, h.secondary]

theorem evaluate_eq (h : d.Interchangeable d') (c : CompiledField) :
    c.evaluate d = c.evaluate d' := by
  have hscope : d.scope = d'.scope := by
    unfold scope
    rw [h.resolve_eq]
  unfold CompiledField.evaluate ComputedField.compute computeOperands
  rw [hscope, h.resolve_eq]

theorem store (h : d.Interchangeable d') {c : Collection} {path : String}
    (hpath : c = .primary → Path.first path ≠ pricesKey) (v : Json) :
    (d.store c path v).Interchangeable (d'.store c path v) := by
  cases c with
  | primary =>
    have hprices : (d.primary.setPath path v).prices = d.primary.prices := by
      unfold Document.prices
      rw [Document.get?_setPath_of_ne (hpath rfl).symm]
    constructor
    · exact h.primary.setPath (hpath rfl) v
    · exact h.secondary
    · show ((d.primary.setPath path v).prices.map (·.kind)).Nodup
      rw [hprices]
      exact h.kinds
  | secondary =>
    constructor
    · exact h.primary
    · exact congrArg (·.setPath path v) h.secondary
    · exact h.kinds

theorem addComputed (h : d.Interchangeable d') {f : ComputedField} (hfault : f.fault? = none) :
    (d.addComputed (.compile f)).Interchangeable (d'.addComputed (.compile f)) := by
  unfold Documents.addComputed
  rw [h.evaluate_eq]
  cases ((CompiledField.compile f).evaluate d').bind jsonNumber? with
  | none => exact h
  | some v =>
    have hstore : (d.store f.collection f.path v).Interchangeable
        (d'.store f.collection f.path v) :=
      h.store (ComputedField.first_ne_pricesKey hfault) v
    have hfield : (CompiledField.compile f).field = f := rfl
    rw [hfield]
    cases hc : f.collection with
    | primary => rwa [hc] at hstore
    | secondary => rwa [hc] at hstore

end Interchangeable

/-- The documents with the value that a rule reads, if it reads one. -/
def keep (header : Header) (row : Row) (d : Documents) (r : Rule) : Documents :=
  match r.read (header.cell? row r.header) with
  | .value v => d.store r.collection r.path v
  | _ => d

end Documents

/-! ### Rules -/

namespace Obtained
variable {period : PricePeriod} {header : Header} {row : Row} {rules rules' : List Rule}
  {o o' start : Obtained}

end Obtained

/-! ### Rows and tables -/

namespace Mapping
variable {m : Mapping} {rules' : List Rule} {context : Context} {period : PricePeriod}
  {header row : Row} {o o' : Obtained} {d d' : Documents}

def ratingRule : Rule :=
  { header := "Rating", path := "metrics.rating", collection? := some .secondary }

/-- Two prices with the yearly amount of one of them, a name, and a rating in the snapshot. -/
def quoted : Mapping := { priced with rules := ratingRule :: priced.rules }

end Mapping
end TableImport
