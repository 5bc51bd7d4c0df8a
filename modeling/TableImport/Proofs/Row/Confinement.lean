import Mathlib.Data.List.Forall2
import TableImport.Proofs.Row.Obtained
import TableImport.Proofs.Row.Tables

/-! Computed fields come after the rules: they decide about no row, and change its documents at
their own paths alone. -/
namespace TableImport

/-- The field is stored in the collection, at the path or above or below it. -/
def ComputedField.Touches (f : ComputedField) (c : Collection) (path : String) : Prop :=
  f.collection = c ∧ Path.Overlaps f.path path

namespace Documents
variable {c : Collection} {path : String}

theorem getPath?_addComputed {compiled : CompiledField} (h : ¬compiled.field.Touches c path)
    (d : Documents) :
    ((d.addComputed compiled).ofCollection c).getPath? path =
      (d.ofCollection c).getPath? path := by
  rcases d.addComputed_cases compiled with hsame | ⟨x, v, -, hstore⟩
  · rw [hsame]
  · rw [hstore]
    by_cases hc : c = compiled.field.collection
    · subst hc
      rw [ofCollection_store_self]
      exact Document.getPath?_setPath_of_apart (fun hover => h ⟨rfl, hover⟩) _ v
    · rw [ofCollection_store_of_ne hc]

theorem getPath?_foldl_addComputed {fields : List ComputedField}
    (h : ∀ f ∈ fields, ¬f.Touches c path) (d : Documents) :
    (((fields.map CompiledField.compile).foldl addComputed d).ofCollection c).getPath? path =
      (d.ofCollection c).getPath? path := by
  induction fields generalizing d with
  | nil => rfl
  | cons f fields ih =>
    obtain ⟨hf, hrest⟩ := List.forall_mem_cons.mp h
    have hfield : ¬(CompiledField.compile f).field.Touches c path := hf
    rw [List.map_cons, List.foldl_cons, ih hrest, getPath?_addComputed hfield]

end Documents

namespace Engine

variable {paths : String → Prop}

end Engine
end TableImport
