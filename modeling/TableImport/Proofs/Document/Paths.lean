import Mathlib.Data.List.Infix
import TableImport.Document

/-! What is read at dotted paths after a value is stored at one. -/
namespace TableImport

namespace Path

/-- One path leads to the other, or they are the same. -/
def Overlaps (p q : String) : Prop := segments p <+: segments q ∨ segments q <+: segments p

theorem Overlaps.first_eq {p q : String} (h : Overlaps p q) : first p = first q := by
  rcases h with h | h
  · exact (List.cons_prefix_cons.mp h).1
  · exact (List.cons_prefix_cons.mp h).1.symm

/-- A path of one segment overlaps all that start with it. -/
theorem overlaps_of_first_eq {p q : String} (hq : segments q = [q]) (h : first p = q) :
    Overlaps p q := by
  right
  rw [hq, segments, h]
  exact List.cons_prefix_cons.mpr ⟨rfl, List.nil_prefix⟩

theorem cut_fst_of_snd_eq_nil {cs : List Char} (h : (cut cs).2 = []) : (cut cs).1 = cs := by
  induction cs with
  | nil => rfl
  | cons c cs ih =>
    unfold cut at h ⊢
    simp only at h ⊢
    split at h
    · cases h
    · next hdot => rw [if_neg hdot, ih h]

/-- A path of one segment is that segment. -/
theorem first_eq_of_tail_eq_nil {path : String} (h : (segments path).tail = []) :
    first path = path := by
  have hcut : (cut path.toList).2 = [] := by simpa [segments] using h
  rw [first, cut_fst_of_snd_eq_nil hcut, String.ofList_toList]

theorem cut_join (cs : List Char) : (cut cs).1 ++ (cut cs).2.flatMap ('.' :: ·) = cs := by
  induction cs with
  | nil => rfl
  | cons c cs ih =>
    unfold cut
    simp only
    split
    · next hdot => simp [ih, hdot]
    · next hdot => rw [List.cons_append, ih]

/-- A path is known by its segments. -/
theorem segments_injective {p q : String} (h : segments p = segments q) : p = q := by
  have hlist : ∀ {a b : List Char}, String.ofList a = String.ofList b → a = b := by
    intro a b hab
    simpa using congrArg String.toList hab
  obtain ⟨hfirst, hrest⟩ := List.cons.inj h
  rw [← String.toList_inj, ← cut_join p.toList, hlist hfirst,
    List.map_injective_iff.mpr (fun _ _ => hlist) hrest, cut_join]

end Path

namespace Assoc

theorem at?_child (s : String) (fields : Assoc Json) {q : List String} (hq : q ≠ []) :
    (Json.object (child s fields)).at? q = (get? s fields).bind fun v => v.at? q := by
  obtain ⟨t, rest, rfl⟩ := List.exists_cons_of_ne_nil hq
  unfold child
  cases hget : get? s fields with
  | none => rfl
  | some v => cases v <;> rfl

/-- Below the place of a stored value stands what the value has there. -/
theorem at?_setAt_append (value : Json) {p : List String} (hp : p ≠ []) (below : List String)
    (fields : Assoc Json) :
    (Json.object (setAt value p fields)).at? (p ++ below) = value.at? below := by
  fun_induction setAt value p fields with
  | case1 => exact absurd rfl hp
  | case2 s fields => simp [Json.at?]
  | case3 s t rest fields ih =>
    have hinner := ih (by simp)
    simp only [List.cons_append, Json.at?, get?_insert_self, Option.bind_some] at hinner ⊢
    exact hinner

theorem at?_setAt_self (value : Json) {p : List String} (hp : p ≠ []) (fields : Assoc Json) :
    (Json.object (setAt value p fields)).at? p = some value := by
  have hat := at?_setAt_append value hp [] fields
  rw [List.append_nil] at hat
  exact hat

/-- On the way to a stored value stand objects. -/
theorem at?_setAt_above (value : Json) {q below : List String} (hbelow : below ≠ [])
    (fields : Assoc Json) :
    ∃ inner, (Json.object (setAt value (q ++ below) fields)).at? q = some (.object inner) := by
  induction q generalizing fields with
  | nil => exact ⟨_, rfl⟩
  | cons s q ih =>
    obtain ⟨inner, hinner⟩ := ih (child s fields)
    refine ⟨inner, ?_⟩
    obtain ⟨t, rest, hrest⟩ :=
      List.exists_cons_of_ne_nil (List.append_ne_nil_of_right_ne_nil q hbelow)
    rw [hrest] at hinner
    rw [List.cons_append, hrest, setAt, Json.at?, get?_insert_self, Option.bind_some, hinner]

/-- What is stored at one path is not seen at another, unless one leads to the other. -/
theorem at?_setAt_of_apart (value : Json) {p q : List String} (hpq : ¬p <+: q) (hqp : ¬q <+: p)
    (fields : Assoc Json) :
    (Json.object (setAt value p fields)).at? q = (Json.object fields).at? q := by
  fun_induction setAt value p fields generalizing q with
  | case1 => exact absurd List.nil_prefix hpq
  | case2 s fields =>
    cases q with
    | nil => exact absurd List.nil_prefix hqp
    | cons u q =>
      have hne : u ≠ s := by
        rintro rfl
        exact hpq (List.cons_prefix_cons.mpr ⟨rfl, List.nil_prefix⟩)
      simp only [Json.at?, get?_insert_of_ne hne]
  | case3 s t rest fields ih =>
    cases q with
    | nil => exact absurd List.nil_prefix hqp
    | cons u q =>
      by_cases hu : u = s
      · subst hu
        have htail : ¬t :: rest <+: q := fun h => hpq (List.cons_prefix_cons.mpr ⟨rfl, h⟩)
        have hhead : ¬q <+: t :: rest := fun h => hqp (List.cons_prefix_cons.mpr ⟨rfl, h⟩)
        -- Below the first segment the child stands for the value there, an object or not.
        have hq : q ≠ [] := by
          rintro rfl
          exact hhead List.nil_prefix
        simp only [Json.at?, get?_insert_self, Option.bind_some]
        rw [ih htail hhead, at?_child u fields hq]
      · simp only [Json.at?, get?_insert_of_ne hu]

end Assoc

/-- A value that is no object has nothing below it. -/
theorem Json.at?_of_object?_eq_none {v : Json} (h : v.object? = none) {path : List String}
    (hpath : path ≠ []) : v.at? path = none := by
  obtain ⟨s, rest, rfl⟩ := List.exists_cons_of_ne_nil hpath
  cases v with
  | object fields => cases h
  | _ => rfl

namespace Document

theorem getPath?_eq (d : Document) (path : String) :
    d.getPath? path = (d.get? (Path.first path)).bind fun v => v.at? (Path.segments path).tail :=
  rfl

theorem getPath?_of_isEmpty {d : Document} (h : d.isEmpty = true) (path : String) :
    d.getPath? path = none := by
  obtain ⟨fields⟩ := d
  obtain rfl : fields = [] := List.isEmpty_iff.mp h
  rfl

@[simp] theorem getPath?_setPath_self (d : Document) (path : String) (v : Json) :
    (d.setPath path v).getPath? path = some v :=
  Assoc.at?_setAt_self v (Path.segments_ne_nil path) d.fields

theorem getPath?_setPath_of_apart {p q : String} (h : ¬Path.Overlaps p q) (d : Document)
    (v : Json) : (d.setPath p v).getPath? q = d.getPath? q :=
  Assoc.at?_setAt_of_apart v (fun hpq => h (.inl hpq)) (fun hqp => h (.inr hqp)) d.fields

/-- On the way to a stored value stand objects. -/
theorem getPath?_setPath_above {p q : String} (h : Path.segments q <+: Path.segments p)
    (hne : q ≠ p) (d : Document) (v : Json) :
    ∃ fields, (d.setPath p v).getPath? q = some (.object fields) := by
  obtain ⟨below, hp⟩ := h
  have hbelow : below ≠ [] := by
    rintro rfl
    rw [List.append_nil] at hp
    exact hne (Path.segments_injective hp)
  obtain ⟨fields, hfields⟩ := Assoc.at?_setAt_above v (q := Path.segments q) hbelow d.fields
  rw [hp] at hfields
  exact ⟨fields, hfields⟩

/-- Nothing stands below a stored value that is no object. -/
theorem getPath?_setPath_below {p q : String} (h : Path.segments p <+: Path.segments q)
    (hne : q ≠ p) (d : Document) {v : Json} (hv : v.object? = none) :
    (d.setPath p v).getPath? q = none := by
  obtain ⟨below, hq⟩ := h
  have hbelow : below ≠ [] := by
    rintro rfl
    rw [List.append_nil] at hq
    exact hne (Path.segments_injective hq.symm)
  have hat := Assoc.at?_setAt_append v (Path.segments_ne_nil p) below d.fields
  rw [hq, Json.at?_of_object?_eq_none hv hbelow] at hat
  exact hat

/-- A value that is no object is lost to a later one if one of the paths leads to the other. -/
theorem getPath?_setPath_setPath_iff {p q : String} (hne : p ≠ q) (d : Document) {v w : Json}
    (hv : v.object? = none) (hw : w.object? = none) :
    ((d.setPath p v).setPath q w).getPath? p = some v ↔ ¬Path.Overlaps p q := by
  constructor
  · rintro hkept (hpq | hqp)
    · obtain ⟨fields, hfields⟩ := getPath?_setPath_above hpq hne (d.setPath p v) w
      rw [hfields] at hkept
      obtain rfl := Option.some.inj hkept
      cases hv
    · rw [getPath?_setPath_below hqp hne _ hw] at hkept
      cases hkept
  · intro hapart
    rw [getPath?_setPath_of_apart (fun h => hapart h.symm), getPath?_setPath_self]

theorem getPath?_insert_of_ne {key path : String} (h : Path.first path ≠ key) (d : Document)
    (v : Json) : (d.insert key v).getPath? path = d.getPath? path := by
  have hget : (d.insert key v).get? (Path.first path) = d.get? (Path.first path) :=
    Assoc.get?_insert_of_ne h v d.fields
  rw [getPath?_eq, getPath?_eq, hget]

/-- A text has nothing below it. -/
theorem getPath?_insert_string {key path : String} (h : path ≠ key) {d : Document} (s : String)
    (hnone : d.getPath? path = none) : (d.insert key (.string s)).getPath? path = none := by
  by_cases hfirst : Path.first path = key
  · have hget : (d.insert key (.string s)).get? (Path.first path) = some (.string s) := by
      rw [hfirst]
      exact Assoc.get?_insert_self key _ d.fields
    rw [getPath?_eq, hget, Option.bind_some]
    cases htail : (Path.segments path).tail with
    | nil => exact absurd ((Path.first_eq_of_tail_eq_nil htail).symm.trans hfirst) h
    | cons t rest => rfl
  · rw [getPath?_insert_of_ne hfirst, hnone]

/-- Prices are merged below their own key. -/
theorem getPath?_mergePrices {path : String} (h : Path.first path ≠ pricesKey) (d : Document)
    (incoming : List PriceRecord) :
    (d.mergePrices incoming).getPath? path = d.getPath? path := by
  unfold mergePrices
  split
  · exact getPath?_insert_of_ne h _ _
  · exact getPath?_insert_of_ne h _ _
  · exact getPath?_insert_of_ne h _ _
  · rfl

/-- A document in which something is stored is not empty. -/
theorem isEmpty_setPath (d : Document) (path : String) (v : Json) :
    (d.setPath path v).isEmpty = false := by
  unfold setPath isEmpty
  match h : Path.segments path with
  | [] => exact absurd h (Path.segments_ne_nil path)
  | [s] => simpa [Assoc.setAt] using Assoc.insert_ne_nil _ _ _
  | s :: t :: rest => simpa [Assoc.setAt] using Assoc.insert_ne_nil _ _ _

/-! ### Numbers -/

variable {d : Document} {path q : String} {x : Float}

theorem getNumber?_eq_some (h : d.getNumber? q = some x) :
    ∃ v, d.getPath? q = some v ∧ ((∃ s, v = .string s) ∨ v.float? = some x) := by
  unfold getNumber? at h
  split at h
  · next s hs => exact ⟨_, hs, .inl ⟨s, rfl⟩⟩
  · next v _ hv => exact ⟨v, hv, .inr h⟩
  · cases h

/-- Storing a value that is no object brings a number to no other path than its own. -/
theorem getNumber?_setPath {v : Json} (hv : v.object? = none)
    (h : (d.setPath path v).getNumber? q = some x) : q = path ∨ d.getNumber? q = some x := by
  obtain ⟨w, hw, hnumber⟩ := getNumber?_eq_some h
  rw [or_iff_not_imp_left]
  intro hne
  by_cases hbelow : Path.segments path <+: Path.segments q
  · rw [getPath?_setPath_below hbelow hne d hv] at hw
    cases hw
  by_cases habove : Path.segments q <+: Path.segments path
  · obtain ⟨fields, hfields⟩ := getPath?_setPath_above habove hne d v
    rw [hfields] at hw
    obtain rfl := Option.some.inj hw
    rcases hnumber with ⟨s, hs⟩ | hfloat
    · cases hs
    · cases hfloat
  · have hapart : ¬Path.Overlaps path q := not_or.mpr ⟨hbelow, habove⟩
    rw [getNumber?, getPath?_setPath_of_apart hapart] at h
    exact h

theorem getNumber?_insert_array {key : String} {items : List Json}
    (h : (d.insert key (.array items)).getNumber? q = some x) : d.getNumber? q = some x := by
  by_cases hfirst : Path.first q = key
  · obtain ⟨w, hw, hnumber⟩ := getNumber?_eq_some h
    have hget : (d.insert key (.array items)).get? (Path.first q) = some (.array items) := by
      rw [hfirst]
      exact Assoc.get?_insert_self key _ d.fields
    rw [getPath?_eq, hget, Option.bind_some] at hw
    cases htail : (Path.segments q).tail with
    | nil =>
      rw [htail] at hw
      obtain rfl := Option.some.inj hw
      rcases hnumber with ⟨s, hs⟩ | hfloat
      · cases hs
      · cases hfloat
    | cons t rest =>
      rw [htail] at hw
      cases hw
  · rw [getNumber?, getPath?_insert_of_ne hfirst] at h
    exact h

/-- Merging prices brings a number to no path. -/
theorem getNumber?_mergePrices {incoming : List PriceRecord}
    (h : (d.mergePrices incoming).getNumber? q = some x) : d.getNumber? q = some x := by
  unfold mergePrices at h
  split at h
  · exact getNumber?_insert_array h
  · exact getNumber?_insert_array h
  · exact getNumber?_insert_array h
  · exact h

end Document
end TableImport
