import TableImport.Proofs.Document.Keys
import TableImport.Proofs.Json.Records
import TableImport.Proofs.Number.Whole
import TableImport.Proofs.Price.Merge

/-! Prices as they are stored: their numbers, rounded or whole, and the entries they make. -/
namespace TableImport
open Binary64

/-- A whole number of either kind. -/
def Json.IsIntegral : Json → Prop
  | .int _ => True
  | .float x => isWhole x = true
  | _ => False

namespace PriceRecord

/-! ### Numbers -/

/-- The size from which on numbers are not read. -/
def sizeLimit : Nat := 9 * 10 ^ 15

theorem units_sizeLimit : units 9e15 = sizeLimit * unitsOfOne := by decide +kernel

theorem units_wholeLimit : units 1e15 = 10 ^ 15 * unitsOfOne := by decide +kernel

variable {lo hi i j : Int} {v : Json} {x : Float}

theorem bounds_of_roundedWithin (h : roundedWithin lo hi v = .ok i) : lo ≤ i ∧ i ≤ hi := by
  obtain ⟨x, -, hx⟩ := Fallible.bind_eq_ok_iff.mp h
  split at hx
  · cases hx
  · simp only at hx
    split at hx
    · next hbounds =>
      cases hx
      exact hbounds
    · cases hx

/-- A number that is whole already is read if it is below the limit and within the bounds. -/
theorem roundedWithin_of_isWhole (hx : v.float? = some x) (hwhole : isWhole x = true) :
    roundedWithin lo hi v = .ok i ↔
      whole x < sizeLimit ∧ (toInt64 x).toInt = i ∧ lo ≤ i ∧ i ≤ hi := by
  have hfinite := (isWhole_iff.mp hwhole).1
  have hlimit : 9e15 ≤ x.abs ↔ sizeLimit ≤ whole x :=
    le_abs_iff_le_whole hwhole (by rfl) (by rfl) units_sizeLimit
  have hfloat : Decoder.float v = .ok x := by simp [Decoder.float, hx]
  unfold roundedWithin
  rw [Fallible.bind_eq_ok_iff, hfloat]
  simp only [Except.ok.injEq, exists_eq_left', hfinite, not_true, false_or, hlimit,
    round_of_isWhole hwhole]
  by_cases hsmall : sizeLimit ≤ whole x
  · rw [if_pos hsmall]
    refine iff_of_false (by simp) ?_
    rintro ⟨hlt, -⟩
    omega
  · rw [if_neg hsmall]
    split
    · next hbounds =>
      rw [Except.ok.injEq]
      constructor
      · rintro rfl
        exact ⟨by omega, rfl, hbounds⟩
      · exact fun h => h.2.1
    · next hbounds =>
      refine iff_of_false (by simp) ?_
      rintro ⟨-, rfl, hwithin⟩
      exact hbounds hwithin

theorem roundedWithin_int :
    roundedWithin lo hi (.int i) = .ok j ↔ i.natAbs < sizeLimit ∧ i = j ∧ lo ≤ j ∧ j ≤ hi := by
  by_cases hsmall : i.natAbs < 2 ^ 53
  · obtain ⟨hwhole, habs, -⟩ := ofInt_of_lt hsmall
    rw [roundedWithin_of_isWhole rfl hwhole, habs, toInt64_ofInt hsmall]
  · -- The nearest double may differ from such a number, but it is past the limit as well.
    have hlarge : sizeLimit * unitsOfOne ≤ units (ofInt i) := by
      refine le_trans ?_ (le_units_ofInt (by omega))
      exact Nat.mul_le_mul_right _ (by decide)
    refine iff_of_false ?_ (fun h => hsmall (h.1.trans (by decide)))
    intro h
    obtain ⟨x, hx, hread⟩ := Fallible.bind_eq_ok_iff.mp h
    cases hx
    split at hread
    · cases hread
    · next hlimit =>
      rw [not_or, not_not] at hlimit
      rw [le_abs_iff hlimit.1 (by rfl) (by rfl), units_sizeLimit] at hlimit
      exact hlimit.2 hlarge

theorem wholeNumber?_int (h : i.natAbs < 10 ^ 15) : Json.wholeNumber? (.int i) = some i := by
  have hfits : Json.fitsInt64 i = true := by
    rw [Json.fitsInt64, decide_eq_true_eq]
    omega
  simp [Json.wholeNumber?, Json.int64?, hfits]

/-- A whole number that is read with few enough digits is the same under the stricter reading. -/
theorem wholeNumber?_of_roundedWithin (hv : v.IsIntegral) (h : roundedWithin lo hi v = .ok i)
    (hsmall : i.natAbs < 10 ^ 15) : v.wholeNumber? = some i := by
  cases v with
  | int k =>
    obtain ⟨-, rfl, -⟩ := roundedWithin_int.mp h
    exact wholeNumber?_int hsmall
  | float x =>
    have hwhole : isWhole x = true := hv
    obtain ⟨hlimit, hvalue, -⟩ := (roundedWithin_of_isWhole rfl hwhole).mp h
    rw [toInt_toInt64 hwhole (hlimit.trans (by decide))] at hvalue
    have habs : whole x < 10 ^ 15 := by
      split at hvalue <;> omega
    have hlt : x.abs < 1e15 :=
      (abs_lt_iff_whole_lt hwhole (by rfl) (by rfl) units_wholeLimit).mpr habs
    simp [Json.wholeNumber?, Json.int64?, Json.float?, hwhole, hlt, hvalue,
      toInt_toInt64 hwhole (hlimit.trans (by decide))]
  | null => exact hv.elim
  | bool b => exact hv.elim
  | string s => exact hv.elim
  | array items => exact hv.elim
  | object fields => exact hv.elim

/-! ### Fields -/

/-- A machine number that holds every whole number within the bounds is read as its value. -/
theorem map_roundedWithin_eq_ok_iff {β : Type} {ofInt : Int → β} {toInt : β → Int} {b : β}
    (hback : ∀ i, lo ≤ i → i ≤ hi → toInt (ofInt i) = i) (hsame : ∀ b, ofInt (toInt b) = b) :
    (roundedWithin lo hi v).map ofInt = .ok b ↔ roundedWithin lo hi v = .ok (toInt b) := by
  rw [Fallible.map_eq_ok_iff]
  constructor
  · rintro ⟨i, hi, rfl⟩
    obtain ⟨hlow, hhigh⟩ := bounds_of_roundedWithin hi
    rw [hi, hback i hlow hhigh]
  · intro h
    exact ⟨_, h, hsame b⟩

theorem decodeYear_eq_ok_iff {year : Int32} :
    decodeYear v = .ok year ↔ roundedWithin (-2 ^ 31) (2 ^ 31 - 1) v = .ok year.toInt := by
  apply map_roundedWithin_eq_ok_iff
  · intro i hlow hhigh
    exact Int32.toInt_ofInt_of_le (by omega) (by omega)
  · exact Int32.ofInt_toInt

theorem decodeMonth_eq_ok_iff {month : UInt32} :
    decodeMonth v = .ok month ↔ roundedWithin 0 (2 ^ 32 - 1) v = .ok (month.toNat : Int) := by
  apply map_roundedWithin_eq_ok_iff
  · intro i hlow hhigh
    rw [UInt32.toNat_ofNat']
    omega
  · intro month
    rw [Int.toNat_natCast, UInt32.ofNat_toNat]

theorem decodePrice_eq_ok_iff {price : Int64} :
    decodePrice v = .ok price ↔ roundedWithin (-2 ^ 63) (2 ^ 63 - 1) v = .ok price.toInt := by
  apply map_roundedWithin_eq_ok_iff
  · intro i hlow hhigh
    exact Int64.toInt_ofInt_of_le (by omega) (by omega)
  · exact Int64.ofInt_toInt

/-- What is under a key of prices can be read as the key asks. -/
structure IsReadable (f : String × Json) : Prop where
  year : f.1 = "year" → ∃ year, decodeYear f.2 = .ok year
  month : f.1 = "month" → ∃ month, decodeMonth f.2 = .ok month
  kind : f.1 = "type" → ∃ kind, Decoder.text f.2 = .ok kind
  price : f.1 = "price" → ∃ price, decodePrice f.2 = .ok price
  status : f.1 = "status" → ∃ status, PriceStatus.decode f.2 = .ok status

/-- A price is read from the fields of an object. -/
structure Reads (entry : Assoc Json) (r : PriceRecord) : Prop where
  readable : ∀ f ∈ entry, IsReadable f
  year : ∃ v, Assoc.get? "year" entry = some v ∧ decodeYear v = .ok r.year
  month : ∃ v, Assoc.get? "month" entry = some v ∧ decodeMonth v = .ok r.month
  kind : ∃ v, Assoc.get? "type" entry = some v ∧ Decoder.text v = .ok r.kind
  price : ∃ v, Assoc.get? "price" entry = some v ∧ decodePrice v = .ok r.price
  status : Assoc.get? "status" entry = none ∧ r.status = .confirmed ∨
    ∃ v, Assoc.get? "status" entry = some v ∧ PriceStatus.decode v = .ok r.status

variable {entry : Assoc Json} {r s : PriceRecord}

theorem decode_object_eq_ok_iff : decode (.object entry) = .ok r ↔ Reads entry r := by
  rw [decode, Decoder.record_object_eq_ok_iff]
  simp only [Fallible.bind_eq_ok_iff, Decoder.required_eq_ok_iff, Decoder.withDefault_eq_ok_iff,
    List.map_cons, List.map_nil, List.mem_cons, List.not_mem_nil, String.reduceEq, or_false,
    or_true, if_true, Except.ok.injEq]
  constructor
  · rintro ⟨hchecks, year, hyear, month, hmonth, kind, hkind, price, hprice, status, hstatus, rfl⟩
    refine ⟨?_, hyear, hmonth, hkind, hprice, hstatus⟩
    intro f hf
    obtain ⟨key, v⟩ := f
    refine ⟨?_, ?_, ?_, ?_, ?_⟩
    all_goals
      rintro rfl
      exact Decoder.check_eq_ok_iff.mp (hchecks _ hf _ rfl)
  · rintro ⟨hreadable, hyear, hmonth, hkind, hprice, hstatus⟩
    refine ⟨?_, _, hyear, _, hmonth, _, hkind, _, hprice, _, hstatus, rfl⟩
    intro f hf c hc
    have hcheck := Decoder.mem_of_lookup hc
    simp only [List.mem_cons, Prod.mk.injEq, List.not_mem_nil, or_false] at hcheck
    obtain ⟨hy, hm, hk, hp, hs⟩ := hreadable f hf
    rcases hcheck with ⟨hkey, rfl⟩ | ⟨hkey, rfl⟩ | ⟨hkey, rfl⟩ | ⟨hkey, rfl⟩ | ⟨hkey, rfl⟩
    · exact Decoder.check_eq_ok_iff.mpr (hy hkey)
    · exact Decoder.check_eq_ok_iff.mpr (hm hkey)
    · exact Decoder.check_eq_ok_iff.mpr (hk hkey)
    · exact Decoder.check_eq_ok_iff.mpr (hp hkey)
    · exact Decoder.check_eq_ok_iff.mpr (hs hkey)

/-! ### Entries -/

theorem decodeYear_int (year : Int32) : decodeYear (.int year.toInt) = .ok year := by
  have hlow := year.le_toInt
  have hhigh := year.toInt_lt
  rw [decodeYear_eq_ok_iff, roundedWithin_int]
  refine ⟨?_, rfl, by omega, by omega⟩
  unfold sizeLimit
  omega

theorem decodeMonth_int (month : UInt32) : decodeMonth (.int month.toNat) = .ok month := by
  have hhigh := month.toNat_lt
  rw [decodeMonth_eq_ok_iff, roundedWithin_int]
  refine ⟨?_, rfl, by omega, by omega⟩
  unfold sizeLimit
  omega

theorem decodePrice_int {price : Int64} (h : price.toInt.natAbs < sizeLimit) :
    decodePrice (.int price.toInt) = .ok price := by
  have hlow := price.le_toInt
  have hhigh := price.toInt_lt
  rw [decodePrice_eq_ok_iff, roundedWithin_int]
  exact ⟨h, rfl, by omega, by omega⟩

theorem decode_name (status : PriceStatus) :
    PriceStatus.decode (.string status.name) = .ok status := by
  cases status <;> rfl

/-- The fields of a price are readable, if its amount is. -/
theorem isReadable_of_mem_fields (h : r.price.toInt.natAbs < sizeLimit) {f : String × Json}
    (hf : f ∈ r.fields) : IsReadable f := by
  simp only [fields, List.mem_cons, List.not_mem_nil, or_false] at hf
  rcases hf with rfl | rfl | rfl | rfl | rfl
  all_goals
    constructor <;>
      simp [decodeYear_int, decodeMonth_int, decodePrice_int h, decode_name, Decoder.text]

/-- An entry with all the fields of a price. -/
def Carries (entry : Assoc Json) (r : PriceRecord) : Prop :=
  ∀ key v, Assoc.get? key r.fields = some v → Assoc.get? key entry = some v

theorem carries_fields (r : PriceRecord) : Carries r.fields r := fun _ _ h => h

theorem carries_overwrite (entry : Assoc Json) (r : PriceRecord) :
    Carries (Document.overwrite entry r) r := by
  intro key v h
  rw [Document.overwrite, Assoc.get?_foldl_insert (by simp [fields]), h, Option.some_or]

/-- A price is read from a readable entry with all its fields. -/
theorem Carries.reads (h : Carries entry r) (hreadable : ∀ f ∈ entry, IsReadable f)
    (hprice : r.price.toInt.natAbs < sizeLimit) : Reads entry r where
  readable := hreadable
  year := ⟨_, h "year" _ rfl, decodeYear_int r.year⟩
  month := ⟨_, h "month" _ rfl, decodeMonth_int r.month⟩
  kind := ⟨_, h "type" _ rfl, rfl⟩
  price := ⟨_, h "price" _ rfl, decodePrice_int hprice⟩
  status := .inr ⟨_, h "status" _ rfl, decode_name r.status⟩

theorem reads_fields (h : r.price.toInt.natAbs < sizeLimit) : Reads r.fields r :=
  (carries_fields r).reads (fun _ hf => isReadable_of_mem_fields h hf) h

theorem small_of_decode_toJson (h : decode r.toJson = .ok s) :
    r.price.toInt.natAbs < sizeLimit := by
  obtain ⟨v, hv, hprice⟩ := (decode_object_eq_ok_iff.mp h).price
  obtain rfl : Json.int r.price.toInt = v := Option.some.inj hv
  exact (roundedWithin_int.mp (decodePrice_eq_ok_iff.mp hprice)).1

theorem reads_overwrite (hreadable : ∀ f ∈ entry, IsReadable f)
    (h : r.price.toInt.natAbs < sizeLimit) : Reads (Document.overwrite entry r) r := by
  apply (carries_overwrite entry r).reads ?_ h
  intro f hf
  rcases Assoc.mem_foldl_insert hf with hf | hf
  · exact isReadable_of_mem_fields h hf
  · exact hreadable f hf

/-! ### Slots of entries -/

theorem occupiesSlot_eq_true_iff :
    Document.occupiesSlot entry r = true ↔
      (Assoc.get? "year" entry).bind Json.wholeNumber? = some r.year.toInt ∧
        (Assoc.get? "month" entry).bind Json.wholeNumber? = some (r.month.toNat : Int) ∧
          (Assoc.get? "type" entry).bind Json.string? = some r.kind := by
  simp [Document.occupiesSlot, and_assoc]

/-- An entry is in one slot only. -/
theorem occupiesSlot_iff (h : Document.occupiesSlot entry s = true) :
    Document.occupiesSlot entry r = true ↔ s.slot = r.slot := by
  rw [occupiesSlot_eq_true_iff] at h ⊢
  rw [h.1, h.2.1, h.2.2]
  simp [slot, Int32.toInt_inj, UInt32.toNat_inj]

theorem Carries.occupiesSlot (h : Carries entry r) :
    Document.occupiesSlot entry r = true := by
  have hlow := r.year.le_toInt
  have hhigh := r.year.toInt_lt
  have hmonth := r.month.toNat_lt
  rw [occupiesSlot_eq_true_iff, h "year" (.int r.year.toInt) rfl,
    h "month" (.int r.month.toNat) rfl, h "type" (.string r.kind) rfl, Option.bind_some,
    Option.bind_some, Option.bind_some]
  exact ⟨wholeNumber?_int (by omega), wholeNumber?_int (by omega), rfl⟩

theorem occupiesSlot_of_reads (h : Reads entry r)
    (hyear : ∀ v, Assoc.get? "year" entry = some v → v.IsIntegral)
    (hmonth : ∀ v, Assoc.get? "month" entry = some v → v.IsIntegral) :
    Document.occupiesSlot entry r = true := by
  obtain ⟨v, hv, hdecode⟩ := h.year
  obtain ⟨w, hw, hdecode'⟩ := h.month
  obtain ⟨k, hk, hkind⟩ := h.kind
  have hlow := r.year.le_toInt
  have hhigh := r.year.toInt_lt
  have hmonth' := r.month.toNat_lt
  rw [occupiesSlot_eq_true_iff, hv, hw, hk]
  refine ⟨?_, ?_, ?_⟩
  · exact wholeNumber?_of_roundedWithin (hyear v hv) (decodeYear_eq_ok_iff.mp hdecode) (by omega)
  · exact wholeNumber?_of_roundedWithin (hmonth w hw) (decodeMonth_eq_ok_iff.mp hdecode')
      (by omega)
  · cases k with
    | string t =>
      cases hkind
      rfl
    | null | bool | int | float | array | object => cases hkind

end PriceRecord
end TableImport
