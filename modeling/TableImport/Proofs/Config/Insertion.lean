import TableImport.Proofs.Config.Lookup
import TableImport.Proofs.Keyed.Positions

/-! Adding mappings to a catalog as updates of a map, also where the catalog repeats keys. -/
namespace TableImport.Catalog

/-- What is found under a key is the mapping added last with it, or else what was found before. -/
theorem get_insertAll (c : Catalog) (ms : List Mapping) (platform name : String) :
    (c.insertAll ms).get platform name =
      (Keyed.last? Mapping.key (platform, name) ms).elim (c.get platform name) .ok := by
  rw [get_eq, get_eq, mappings_insertAll, Keyed.first?_putAll]
  cases Keyed.last? Mapping.key (platform, name) ms <;> rfl

/-- Keys that are held keep their order, and new ones follow as they are first added. -/
theorem keys_insertAll_eq_append (c : Catalog) (ms : List Mapping) :
    (c.insertAll ms).keys =
      c.keys ++ ((ms.map Mapping.key).filter fun k => k ∉ c.keys).eraseDups := by
  have hkeys : c.keys = c.mappings.map Mapping.key := rfl
  have hnew : (ms.map Mapping.key).removeAll c.keys =
      (ms.map Mapping.key).filter fun k => k ∉ c.keys := by
    simp [List.removeAll]
  rw [keys_insertAll, Keyed.map_putAll, ← hkeys, hnew]

/-- Under a key stands the mapping that was added last with it, or what stood there before. The
mappings that are held keep their places, but the first one of a key gives way to the last that is
added with it; new keys follow in the order in which they are first added, each of them once. -/
theorem insertAll_updates (c : Catalog) (ms : List Mapping) :
    (∀ platform name, (c.insertAll ms).get platform name =
      (Keyed.last? Mapping.key (platform, name) ms).elim (c.get platform name) .ok) ∧
    (c.insertAll ms).keys =
      c.keys ++ ((ms.map Mapping.key).filter fun k => k ∉ c.keys).eraseDups ∧
    (∀ (i : Nat) m, c.mappings[i]? = some m → (c.insertAll ms).mappings[i]? =
      some (if c.keys.idxOf m.key = i then (Keyed.last? Mapping.key m.key ms).getD m else m)) ∧
    (c.insertAll ms).size = c.size + ((ms.map Mapping.key).toFinset \ c.keys.toFinset).card := by
  refine ⟨get_insertAll c ms, keys_insertAll_eq_append c ms, ?_, ?_⟩
  · intro i m hm
    rw [mappings_insertAll]
    exact Keyed.getElem?_putAll_of_getElem? hm ms
  · rw [size, mappings_insertAll]
    exact Keyed.length_putAll Mapping.key c.mappings ms

end TableImport.Catalog
