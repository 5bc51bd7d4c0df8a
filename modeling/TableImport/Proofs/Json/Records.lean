import TableImport.Json.Decode
import TableImport.Proofs.Fallible

/-! When a record is read out of a JSON object, and from which of its fields. -/
namespace TableImport.Decoder
open Fallible
variable {α β : Type}

theorem eq_ok_of_toOption {x : Except DecodeError α} {a : α} (h : x.toOption = some a) :
    x = .ok a := by
  cases x with
  | error e => cases h
  | ok b =>
    cases h
    rfl

theorem check_eq_ok_iff {d : Decoder α} {v : Json} : check d v = .ok () ↔ ∃ a, d v = .ok a := by
  simp [check, map_eq_ok_iff]

theorem required_eq_ok_iff {d : Decoder α} {v? : Option Json} {a : α} :
    required d v? = .ok a ↔ ∃ v, v? = some v ∧ d v = .ok a := by
  cases v? <;> simp [required]

theorem withDefault_eq_ok_iff {default a : α} {d : Decoder α} {v? : Option Json} :
    withDefault default d v? = .ok a ↔
      v? = none ∧ a = default ∨ ∃ v, v? = some v ∧ d v = .ok a := by
  cases v? <;> simp [withDefault, eq_comm]

theorem lookup_filter_contains (names : List String) (fields : List (String × Json))
    (name : String) :
    (fields.filter fun f => names.contains f.1).lookup name =
      if name ∈ names then Assoc.get? name fields else none := by
  induction fields with
  | nil => simp
  | cons f fields ih => grind [Assoc.get?]

theorem mem_of_lookup {key : String} {b : β} {fields : List (String × β)}
    (h : fields.lookup key = some b) : (key, b) ∈ fields := by
  obtain ⟨before, after, rfl, -⟩ := List.lookup_eq_some_iff.mp h
  simp

/-- A record is read from an object when each of its fields that stands there passes its check
and the values found first can be put together. -/
theorem record_object_eq_ok_iff {checks : List (String × (Json → Except DecodeError Unit))}
    {build : (String → Option Json) → Except DecodeError α} {fields : List (String × Json)}
    {a : α} :
    record checks build (.object fields) = .ok a ↔
      (∀ f ∈ fields, ∀ c, checks.lookup f.1 = some c → c f.2 = .ok ()) ∧
        build (fun name => if name ∈ checks.map Prod.fst then Assoc.get? name fields else none) =
          .ok a := by
  have hnamed : ∀ {key c}, checks.lookup key = some c → key ∈ checks.map Prod.fst := by
    intro key c hc
    exact List.mem_map.mpr ⟨_, mem_of_lookup hc, rfl⟩
  unfold record members
  rw [bind_eq_ok_iff]
  simp only [Except.ok.injEq, exists_eq_left']
  rw [andThen_eq_ok_iff, forM_eq_ok_iff]
  simp only [tooLong, lookup_filter_contains, Bool.false_eq_true, if_false]
  refine and_congr_left fun _ => ?_
  constructor
  · intro h f hf c hc
    have hgiven := h f (List.mem_filter.mpr ⟨hf, List.contains_iff_mem.mpr (hnamed hc)⟩)
    simpa only [hc] using hgiven
  · intro h f hf
    cases hc : checks.lookup f.1 with
    | none => rfl
    | some c => exact h f (List.mem_filter.mp hf).1 c hc

end TableImport.Decoder
