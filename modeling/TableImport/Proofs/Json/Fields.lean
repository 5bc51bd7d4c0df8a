import TableImport.Proofs.Document.Keys
import TableImport.Proofs.Json.Records

/-! Values read back from the JSON that they are written as: numbers and lists, and records of
which some fields are left out. -/
namespace TableImport

namespace Assoc
variable {α : Type} {pairs : List (String × α)}

theorem get?_ofPairs (h : (pairs.map Prod.fst).Nodup) (key : String) :
    get? key (ofPairs pairs) = get? key pairs := by
  rw [ofPairs, get?_foldl_insert h, get?_nil, Option.or_none]

theorem mem_of_mem_ofPairs {p : String × α} (h : p ∈ ofPairs pairs) : p ∈ pairs := by
  rcases mem_foldl_insert h with hp | hp
  · exact hp
  · cases hp

/-! ### Fields that may have no value -/

variable {fields : List (String × Option α)}

/-- The fields that have a value. -/
def present (fields : List (String × Option α)) : List (String × α) :=
  fields.filterMap fun f => f.2.map (f.1, ·)

theorem mem_present_iff {p : String × α} : p ∈ present fields ↔ (p.1, some p.2) ∈ fields := by
  unfold present
  rw [List.mem_filterMap]
  constructor
  · rintro ⟨⟨key, v?⟩, hf, hp⟩
    obtain ⟨v, rfl, rfl⟩ := Option.map_eq_some_iff.mp hp
    exact hf
  · intro hf
    exact ⟨_, hf, rfl⟩

theorem keys_present_sublist (fields : List (String × Option α)) :
    ((present fields).map Prod.fst).Sublist (fields.map Prod.fst) := by
  induction fields with
  | nil => exact .refl _
  | cons f fields ih =>
    obtain ⟨key, v?⟩ := f
    cases v? with
    | none => exact ih.cons _
    | some v => exact ih.cons_cons _

theorem get?_present_of_mem (h : (fields.map Prod.fst).Nodup) {f : String × Option α}
    (hf : f ∈ fields) : get? f.1 (present fields) = f.2 := by
  induction fields with
  | nil => cases hf
  | cons g fields ih =>
    obtain ⟨key, v?⟩ := g
    rw [List.map_cons, List.nodup_cons] at h
    rcases List.mem_cons.mp hf with rfl | htail
    · cases v? with
      | none =>
        have hnone : key ∉ (present fields).map Prod.fst :=
          fun hkey => h.1 ((keys_present_sublist fields).subset hkey)
        exact get?_eq_none_iff.mpr hnone
      | some v => exact if_pos rfl
    · have hne : key ≠ f.1 := by
        rintro rfl
        exact h.1 (List.mem_map.mpr ⟨f, htail, rfl⟩)
      rw [← ih h.2 htail]
      cases v? with
      | none => rfl
      | some v => exact if_neg hne

theorem get?_present_of_not_mem {key : String} (h : key ∉ fields.map Prod.fst) :
    get? key (present fields) = none :=
  get?_eq_none_iff.mpr fun hkey => h ((keys_present_sublist fields).subset hkey)

end Assoc

namespace Decoder
variable {α : Type}

/-- A record with some of its fields is read from the object of them: each of them passes its
check, and what is found under their names, and nothing under others, gives the record. -/
theorem record_ofFields {checks : List (String × (Json → Except DecodeError Unit))}
    {build : (String → Option Json) → Except DecodeError α}
    {fields : List (String × Option Json)} {a : α} (hkeys : (fields.map Prod.fst).Nodup)
    (hchecks : ∀ f ∈ fields, ∃ c, checks.lookup f.1 = some c ∧ ∀ v ∈ f.2, c v = .ok ())
    (hbuild : ∀ given : String → Option Json, (∀ f ∈ fields, given f.1 = f.2) →
      (∀ name, name ∉ fields.map Prod.fst → given name = none) → build given = .ok a) :
    record checks build (.ofFields fields) = .ok a := by
  have hpresent : ((Assoc.present fields).map Prod.fst).Nodup :=
    hkeys.sublist (Assoc.keys_present_sublist fields)
  refine record_object_eq_ok_iff.mpr ⟨?_, hbuild _ ?_ ?_⟩
  · intro p hp c hc
    have hf := Assoc.mem_present_iff.mp (Assoc.mem_of_mem_ofPairs hp)
    obtain ⟨c', hc', hpasses⟩ := hchecks _ hf
    obtain rfl : c' = c := Option.some.inj (hc'.symm.trans hc)
    exact hpasses p.2 rfl
  · intro f hf
    obtain ⟨c, hc, -⟩ := hchecks f hf
    have hname : f.1 ∈ checks.map Prod.fst := List.mem_map.mpr ⟨_, mem_of_lookup hc, rfl⟩
    rw [if_pos hname]
    exact (Assoc.get?_ofPairs hpresent f.1).trans (Assoc.get?_present_of_mem hkeys hf)
  · intro name hname
    have hnone := (Assoc.get?_ofPairs hpresent name).trans (Assoc.get?_present_of_not_mem hname)
    exact ite_eq_right_iff.mpr fun _ => hnone

theorem check_some {d : Decoder α} {v : Json} {a : α} (h : d v = .ok a) :
    ∀ w ∈ some v, check d w = .ok () := by
  rintro w ⟨⟩
  exact check_eq_ok_iff.mpr ⟨a, h⟩

theorem optional_eq_ok {d : Decoder α} {v : Json} {a : α} (hv : v ≠ .null) (h : d v = .ok a) :
    optional d v = .ok (some a) := by
  have hsome : optional d v = (d v).map some := by
    cases v with
    | null => exact absurd rfl hv
    | bool | int | float | string | array | object => rfl
  rw [hsome, h]
  rfl

section
variable {d : Decoder α} {toJson : α → Json} {a? : Option α}
  (h : ∀ a ∈ a?, optional d (toJson a) = .ok (some a))
include h

/-- A value that is not there is left out, and read as such. -/
theorem withDefault_optional_map :
    withDefault none (optional d) (a?.map toJson) = .ok a? := by
  cases a? with
  | none => rfl
  | some a => exact h a rfl

theorem check_optional_map : ∀ v ∈ a?.map toJson, check (optional d) v = .ok () := by
  cases a? with
  | none => exact fun v hv => nomatch hv
  | some a => exact check_some (h a rfl)

end

theorem list_map {d : Decoder α} {toJson : α → Json} {as : List α}
    (h : ∀ a ∈ as, d (toJson a) = .ok a) : list d (.array (as.map toJson)) = .ok as := by
  have hmap : (as.map toJson).mapM d = .ok as :=
    Fallible.mapM_eq_ok_iff.mpr (List.forall₂_map_left_iff.mpr (List.forall₂_same.mpr h))
  exact hmap

theorem uint32_toNat (n : UInt32) : uint32 (.int n.toNat) = .ok n := by
  have hrange : (0 : Int) ≤ n.toNat ∧ (n.toNat : Int) ≤ 2 ^ 32 - 1 := by
    have hlt := n.toNat_lt
    omega
  have hwithin : within 0 (2 ^ 32 - 1) (.int n.toNat) = .ok n.toNat := if_pos hrange
  rw [uint32, hwithin]
  show Except.ok (UInt32.ofNat n.toNat) = .ok n
  rw [UInt32.ofNat_toNat]

end Decoder
end TableImport
