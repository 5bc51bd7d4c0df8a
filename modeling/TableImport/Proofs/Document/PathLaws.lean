import TableImport.Proofs.Document.Commutation

/-! What is read at any path after a value is stored at one, and the order of two stored values. -/
namespace TableImport.Document
variable {p q : String} {rest : List String}

/-- Below a stored value stands what the value has there. -/
theorem getPath?_setPath_append (h : Path.segments q = Path.segments p ++ rest) (d : Document)
    (v : Json) : (d.setPath p v).getPath? q = v.at? rest := by
  rw [getPath?, h]
  exact Assoc.at?_setAt_append v (Path.segments_ne_nil p) rest d.fields

/-- A value stored at a path is read there, and what it holds below the path. On the way to it stand
objects. At paths apart from it nothing changes, and values are stored there in any order. -/
theorem setPath_laws (d : Document) (p q : String) (v w : Json) :
    (d.setPath p v).getPath? p = some v ∧
    (∀ rest, Path.segments q = Path.segments p ++ rest →
      (d.setPath p v).getPath? q = v.at? rest) ∧
    (∀ rest, rest ≠ [] → Path.segments p = Path.segments q ++ rest →
      ∃ fields, (d.setPath p v).getPath? q = some (.object fields)) ∧
    (¬Path.segments p <+: Path.segments q → ¬Path.segments q <+: Path.segments p →
      (d.setPath p v).getPath? q = d.getPath? q ∧
        (d.setPath p v).setPath q w = (d.setPath q w).setPath p v) := by
  refine ⟨getPath?_setPath_self d p v, fun rest h => getPath?_setPath_append h d v, ?_, ?_⟩
  · intro rest hrest h
    have hne : q ≠ p := by
      rintro rfl
      exact hrest (List.self_eq_append_right.mp h)
    exact getPath?_setPath_above ⟨rest, h.symm⟩ hne d v
  · intro hpq hqp
    have hapart : ¬Path.Overlaps p q := not_or.mpr ⟨hpq, hqp⟩
    exact ⟨getPath?_setPath_of_apart hapart d v, setPath_comm hapart d v w⟩

/-- A document with a text where a path with an empty segment needs an object. -/
def unnested : Document :=
  ⟨[("fees", .object [("video", .int 1000)]), ("name", .string "Alpha")]⟩

/-- What a value to be stored there holds. -/
def spellings : Json := .object [("short", .string "A")]

theorem setPath_laws_unnested :
    (unnested.setPath "name." spellings).getPath? "name." = some spellings ∧
      (unnested.setPath "name." spellings).getPath? "name..short" = some (.string "A") ∧
      (∃ fields, (unnested.setPath "name." spellings).getPath? "name" = some (.object fields)) ∧
      (unnested.setPath "name." spellings).getPath? "fees.video" =
        unnested.getPath? "fees.video" ∧
      (unnested.setPath "name." spellings).setPath "fees.video" .null =
        (unnested.setPath "fees.video" .null).setPath "name." spellings := by
  have hbelow : Path.segments "name..short" = Path.segments "name." ++ ["short"] := by
    decide +kernel
  have habove : Path.segments "name." = Path.segments "name" ++ [""] := by decide +kernel
  have hpq : ¬Path.segments "name." <+: Path.segments "fees.video" := by decide +kernel
  have hqp : ¬Path.segments "fees.video" <+: Path.segments "name." := by decide +kernel
  obtain ⟨hself, hread, -⟩ := setPath_laws unnested "name." "name..short" spellings .null
  obtain ⟨-, -, hobject, -⟩ := setPath_laws unnested "name." "name" spellings .null
  obtain ⟨-, -, -, hapart⟩ := setPath_laws unnested "name." "fees.video" spellings .null
  exact ⟨hself, hread ["short"] hbelow, hobject [""] (by simp) habove, hapart hpq hqp⟩

end TableImport.Document
