import TableImport.Context
import TableImport.Proofs.Document.Commutation
import TableImport.Proofs.Document.Keys

/-! Documents whose lists of prices are in different orders: what is read from them is the same. -/
namespace TableImport.Document

/-- The same documents, but for the order of the entries in the list of prices. -/
inductive SameUpToPriceOrder : Document → Document → Prop where
  | same (d : Document) : SameUpToPriceOrder d d
  | reordered (d : Document) {items items' : List Json} (h : items.Perm items') :
      SameUpToPriceOrder (d.insert pricesKey (.array items)) (d.insert pricesKey (.array items'))

variable {d d' : Document} {key path : String}

/-- A path away from a key can be written before or after the key. -/
theorem setPath_insert_comm (h : Path.first path ≠ key) (d : Document) (v w : Json) :
    (d.insert key w).setPath path v = (d.setPath path v).insert key w := by
  have hapart : ¬[key] <+: Path.segments path := by
    intro hprefix
    exact h (List.cons_prefix_cons.mp hprefix).1.symm
  have hapart' : ¬Path.segments path <+: [key] := by
    intro hprefix
    exact h (List.cons_prefix_cons.mp hprefix).1
  exact congrArg Document.mk (Assoc.setAt_comm hapart' hapart v w d.fields)

/-- Which entries a list has shows neither below its key nor in a number or natural key there. -/
theorem getPath?_insert_array (d : Document) (key path : String) (items items' : List Json) :
    (d.insert key (.array items)).getPath? path = (d.insert key (.array items')).getPath? path ∨
      (d.insert key (.array items)).getPath? path = some (.array items) ∧
        (d.insert key (.array items')).getPath? path = some (.array items') := by
  rw [getPath?_eq, getPath?_eq]
  by_cases hfirst : Path.first path = key
  · rw [hfirst, get?_insert_self, get?_insert_self, Option.bind_some, Option.bind_some]
    cases (Path.segments path).tail with
    | nil => exact .inr ⟨rfl, rfl⟩
    | cons s rest => exact .inl rfl
  · rw [get?_insert_of_ne hfirst, get?_insert_of_ne hfirst]
    exact .inl rfl

/-- Where there is one price of each kind, it is found wherever it stands. -/
theorem findPrice?_eq_some_iff {kind : String} {p : PriceRecord}
    (hkinds : (d.prices.map (·.kind)).Nodup) :
    d.findPrice? kind = some p ↔ p ∈ d.prices ∧ p.kind = kind := by
  constructor
  · intro h
    exact ⟨List.mem_of_find?_eq_some h, by simpa using List.find?_some h⟩
  · rintro ⟨hp, rfl⟩
    cases hfound : d.findPrice? p.kind with
    | none => exact absurd (beq_self_eq_true p.kind) (List.find?_eq_none.mp hfound p hp)
    | some q =>
      have hq : q ∈ d.prices := List.mem_of_find?_eq_some hfound
      have hkind : q.kind = p.kind := by simpa using List.find?_some hfound
      rw [List.inj_on_of_nodup_map hkinds hq hp hkind]

namespace SameUpToPriceOrder

theorem setPath (h : d.SameUpToPriceOrder d') (hpath : Path.first path ≠ pricesKey) (v : Json) :
    (d.setPath path v).SameUpToPriceOrder (d'.setPath path v) := by
  cases h with
  | same => exact .same _
  | reordered base hperm =>
    rw [setPath_insert_comm hpath, setPath_insert_comm hpath]
    exact .reordered _ hperm

theorem getNumber?_eq (h : d.SameUpToPriceOrder d') (path : String) :
    d.getNumber? path = d'.getNumber? path := by
  cases h with
  | same => rfl
  | reordered base hperm =>
    unfold getNumber?
    rcases base.getPath?_insert_array pricesKey path _ _ with hsame | ⟨hitems, hitems'⟩
    · rw [hsame]
    · rw [hitems, hitems']
      rfl

theorem prices_perm (h : d.SameUpToPriceOrder d') : d.prices.Perm d'.prices := by
  cases h with
  | same => exact .refl _
  | reordered base hperm =>
    unfold Document.prices
    rw [get?_insert_self, get?_insert_self]
    exact hperm.filterMap _

theorem findPrice?_eq (h : d.SameUpToPriceOrder d') (hkinds : (d.prices.map (·.kind)).Nodup)
    (kind : String) : d.findPrice? kind = d'.findPrice? kind := by
  have hkinds' : (d'.prices.map (·.kind)).Nodup := (h.prices_perm.map _).nodup_iff.mp hkinds
  apply Option.ext
  intro p
  rw [findPrice?_eq_some_iff hkinds, findPrice?_eq_some_iff hkinds', h.prices_perm.mem_iff]

end SameUpToPriceOrder
end TableImport.Document
