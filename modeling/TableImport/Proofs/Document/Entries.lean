import TableImport.Proofs.Document.Commutation
import TableImport.Proofs.Document.Distinct
import TableImport.Proofs.Keyed.Batches

/-! Stored entries and the prices that are written over them, whatever the entries hold: the same
prices again change nothing, and prices for different slots can be written in either order. -/
namespace TableImport

/-- Fields put over a map may be put in any order. -/
theorem Assoc.putLaws {α : Type} :
    Keyed.PutLaws Prod.fst (fun _ _ => True) fun (f : String × α) m => insert f.1 f.2 m where
  has_self _ _ := trivial
  has_put _ _ := trivial
  put_put := by
    rintro ⟨k, v⟩ ⟨_, w⟩ rfl m
    exact insert_insert k v w m
  put_comm hne _ := insert_comm hne _ _ _

namespace Document
open PriceRecord

variable {t u : Int32 × UInt32 × String} {r s : PriceRecord} {v : Json}
  {items : List Json} {prices incoming : List PriceRecord}

/-! ### Entries -/

theorem putAll_fields (r s : PriceRecord) : Keyed.putAll Prod.fst s.fields r.fields = r.fields := by
  simp [PriceRecord.fields, Keyed.putAll, Keyed.put]

theorem overwrite_overwrite (entry : Assoc Json) (r s : PriceRecord) :
    overwrite (overwrite entry s) r = overwrite entry r := by
  have hkeys : (s.fields.map Prod.fst).Nodup := by simp [PriceRecord.fields]
  have hputAll := Assoc.putLaws.foldl_putAll hkeys r.fields entry
  rw [putAll_fields] at hputAll
  exact hputAll.symm

/-- A stored value with a price's fields written over its own, if it has any. -/
def withPrice (r : PriceRecord) : Json → Json
  | .object entry => .object (overwrite entry r)
  | v => v

theorem withPrice_withPrice (r s : PriceRecord) (v : Json) :
    withPrice r (withPrice s v) = withPrice r v := by
  cases v with
  | object entry => exact congrArg Json.object (overwrite_overwrite entry r s)
  | null | bool | int | float | string | array => rfl

theorem withPrice_toJson (r s : PriceRecord) : withPrice r s.toJson = r.toJson :=
  congrArg Json.object (overwrite_fields r s)

/-- A value that is found for a slot is found for that slot alone. -/
theorem occupies_eq (h : occupies t v = true) : occupies u v = decide (t = u) := by
  by_cases hu : t = u
  · rw [← hu, h, decide_eq_true rfl]
  · rw [(other_of_occupies h hu).2, decide_eq_false hu]

theorem occupies_withPrice_self (h : occupies r.slot v = true) :
    occupies r.slot (withPrice r v) = true := by
  cases v with
  | object entry => exact (carries_overwrite entry r).occupiesSlot
  | null | bool | int | float | string | array => cases h

theorem occupies_withPrice (h : occupies r.slot v = true) :
    occupies t (withPrice r v) = occupies t v := by
  rw [occupies_eq (occupies_withPrice_self h), occupies_eq h]

theorem occupies_toJson : occupies t r.toJson = decide (r.slot = t) :=
  occupies_eq (carries_fields r).occupiesSlot

/-! ### One price -/

theorem putPrice_cons_of_occupies (h : occupies r.slot v = true) (items : List Json) :
    putPrice r (v :: items) = withPrice r v :: items := by
  cases v with
  | object entry => exact if_pos h
  | null | bool | int | float | string | array => cases h

theorem putPrice_cons_of_not (h : occupies r.slot v = false) (items : List Json) :
    putPrice r (v :: items) = v :: putPrice r items := by
  cases v with
  | object entry => exact if_neg (Bool.eq_false_iff.mp h)
  | null | bool | int | float | string | array => rfl

/-- Stored values, each found for the slot of a price at most. -/
def entries : Keyed.Entries PriceRecord Json (Int32 × UInt32 × String) where
  key := slot
  found := occupies
  new := PriceRecord.toJson
  write := withPrice
  found_new := by
    intro r t
    rw [occupies_toJson, decide_eq_true_iff]
  found_write h _ := occupies_withPrice h
  eq_of_found {v t u} ht hu := by rwa [occupies_eq ht, decide_eq_true_iff] at hu
  write_new _ := withPrice_toJson ..
  write_write _ := withPrice_withPrice _ _

theorem put_entries : entries.put = putPrice := by
  funext r items
  induction items with
  | nil => rfl
  | cons v items ih =>
    cases h : occupies r.slot v with
    | true => rw [Keyed.Entries.put_cons_of_found h, putPrice_cons_of_occupies h]; rfl
    | false => rw [Keyed.Entries.put_cons_of_not h, putPrice_cons_of_not h, ih]

theorem putLaws_putPrice :
    Keyed.PutLaws slot (fun t items => items.any (occupies t) = true) putPrice :=
  put_entries ▸ entries.putLaws

/-! ### Many prices -/

/-- What the first value of a list becomes: the last of the prices for its slot is written over it. -/
def afterPrices (incoming : List PriceRecord) (v : Json) : Json :=
  (incoming.findRev? fun r => occupies r.slot v).elim v (withPrice · v)

theorem afterPrices_concat (incoming : List PriceRecord) (r : PriceRecord) (v : Json) :
    afterPrices (incoming ++ [r]) v =
      if occupies r.slot v then withPrice r v else afterPrices incoming v := by
  simp only [afterPrices, List.findRev?_eq_find?_reverse, List.reverse_append,
    List.reverse_singleton, List.singleton_append, List.find?_cons]
  cases occupies r.slot v <;> rfl

theorem afterPrices_cases (incoming : List PriceRecord) (v : Json) :
    afterPrices incoming v = v ∨
      ∃ r, occupies r.slot v = true ∧ afterPrices incoming v = withPrice r v := by
  unfold afterPrices
  cases h : incoming.findRev? fun r => occupies r.slot v with
  | none => exact .inl rfl
  | some r =>
    rw [List.findRev?_eq_find?_reverse] at h
    have hfound : occupies r.slot v = true := by simpa using List.find?_some h
    exact .inr ⟨r, hfound, rfl⟩

/-- The first value takes the prices for its slot, and the others go to the rest of the list. -/
theorem foldl_putPrice_cons (incoming : List PriceRecord) (v : Json) (items : List Json) :
    incoming.foldl (fun items r => putPrice r items) (v :: items) =
      afterPrices incoming v ::
        (incoming.filter fun r => !occupies r.slot v).foldl (fun items r => putPrice r items)
          items := by
  induction incoming using List.reverseRecOn with
  | nil => rfl
  | append_singleton incoming r ih =>
    rw [List.foldl_concat, ih, afterPrices_concat, List.filter_append]
    have hsame : occupies r.slot (afterPrices incoming v) = occupies r.slot v ∧
        withPrice r (afterPrices incoming v) = withPrice r v := by
      rcases afterPrices_cases incoming v with h | ⟨s, hs, h⟩
      · rw [h]
        exact ⟨rfl, rfl⟩
      · rw [h]
        exact ⟨occupies_withPrice hs, withPrice_withPrice r s v⟩
    cases h : occupies r.slot v with
    | true =>
      rw [putPrice_cons_of_occupies (hsame.1.trans h), hsame.2]
      simp [h]
    | false =>
      rw [putPrice_cons_of_not (hsame.1.trans h)]
      simp [h]

end Document
end TableImport
