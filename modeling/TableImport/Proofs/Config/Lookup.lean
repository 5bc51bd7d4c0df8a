import TableImport.Import
import TableImport.Proofs.Json.Records
import TableImport.Proofs.Keyed

/-! What catalogs hold under each key: mappings of the JSON text that they are read from, and those
that are added later. -/
namespace TableImport

namespace Mapping

/-- What a mapping is looked up by. -/
def key (m : Mapping) : String × String := (m.platform, m.name)

theorem hasKey_iff {platform name : String} {m : Mapping} :
    m.HasKey platform name ↔ m.key = (platform, name) := by
  simp [HasKey, key]

theorem put_eq (m : Mapping) (ms : List Mapping) : m.put ms = Keyed.put key m ms := by
  induction ms with
  | nil => rfl
  | cons n ms ih =>
    simp only [put, Keyed.put, hasKey_iff, ih]
    rfl

end Mapping

namespace Catalog
variable {c : Catalog} {v : Json} {platform name : String} {m : Mapping}

/-! ### Mappings added to a catalog -/

/-- Mappings added one after another. -/
def insertAll (c : Catalog) (ms : List Mapping) : Catalog := ms.foldl insert c

theorem mappings_insertAll (c : Catalog) (ms : List Mapping) :
    (c.insertAll ms).mappings = Keyed.putAll Mapping.key c.mappings ms := by
  induction ms generalizing c with
  | nil => rfl
  | cons m ms ih =>
    have hinsert : (c.insert m).mappings = Keyed.put Mapping.key m c.mappings := m.put_eq _
    rw [Keyed.putAll_cons, ← hinsert, ← ih]
    rfl

theorem keys_insertAll (c : Catalog) (ms : List Mapping) :
    (c.insertAll ms).keys = (Keyed.putAll Mapping.key c.mappings ms).map Mapping.key :=
  congrArg (List.map Mapping.key) (mappings_insertAll c ms)

theorem nodup_keys_insertAll_iff (c : Catalog) (ms : List Mapping) :
    (c.insertAll ms).keys.Nodup ↔ c.keys.Nodup := by
  rw [keys_insertAll, Keyed.nodup_putAll_iff]
  rfl

/-- What is found under a key is the first mapping that has it. -/
theorem get_eq (c : Catalog) (platform name : String) :
    c.get platform name = (Keyed.first? Mapping.key (platform, name) c.mappings).elim
      (.error (.unknownMapping platform name)) .ok := by
  have hfirst : c.get? platform name = Keyed.first? Mapping.key (platform, name) c.mappings := by
    simp only [get?, Keyed.first?, Mapping.hasKey_iff]
  rw [get, hfirst]
  cases Keyed.first? Mapping.key (platform, name) c.mappings <;> rfl

theorem get_eq_ok_iff :
    c.get platform name = .ok m ↔
      Keyed.first? Mapping.key (platform, name) c.mappings = some m := by
  rw [get_eq]
  cases Keyed.first? Mapping.key (platform, name) c.mappings <;> simp

theorem get_insertAll_eq_ok_iff (c : Catalog) (ms : List Mapping) :
    (c.insertAll ms).get platform name = .ok m ↔
      (Keyed.last? Mapping.key (platform, name) ms).or
        (Keyed.first? Mapping.key (platform, name) c.mappings) = some m := by
  rw [get_eq_ok_iff, mappings_insertAll, Keyed.first?_putAll]

/-! ### Catalogs that are read -/

/-- The items of the list of mappings in a JSON value. -/
def items : Json → List Json
  | .array items => items
  | .object fields => match Assoc.get? "configs" fields with
    | some (.array items) => items
    | _ => []
  | _ => []

/-- A catalog holds a mapping for each item, in the order of the text. -/
theorem forall₂_items (h : decode v = .ok c) :
    List.Forall₂ (fun w m => Mapping.decode w = .ok m) (items v) c.mappings := by
  cases v with
  | array items =>
    obtain ⟨ms, hms, rfl⟩ := Fallible.map_eq_ok_iff.mp h
    exact Fallible.mapM_eq_ok_iff.mp hms
  | object fields =>
    simp only [decode] at h
    obtain ⟨-, hbuild⟩ := Decoder.record_object_eq_ok_iff.mp h
    obtain ⟨ms, hms, rfl⟩ := Fallible.map_eq_ok_iff.mp hbuild
    have hgiven : Decoder.withDefault [] (Decoder.list Mapping.decode)
        (Assoc.get? "configs" fields) = .ok ms := by
      simpa using hms
    rcases Decoder.withDefault_eq_ok_iff.mp hgiven with ⟨hnone, rfl⟩ | ⟨w, hw, hlist⟩
    · simp only [items, hnone]
      exact .nil
    · simp only [items, hw]
      cases w with
      | array items => exact Fallible.mapM_eq_ok_iff.mp hlist
      | _ => cases hlist
  | _ => cases h

/-- A catalog read from a text, or from the bytes of a file, and the JSON value there. -/
def IsRead (c : Catalog) (v : Json) : Prop :=
  (∃ text, Json.read? text = some v ∧ ofText text = .ok c) ∨
    ∃ content, Json.readBytes? content = some v ∧ ofFile (.bytes content) = .ok c

theorem IsRead.decode_eq (h : c.IsRead v) : decode v = .ok c := by
  rcases h with ⟨text, hv, hc⟩ | ⟨content, hv, hc⟩
  · unfold ofText Decoder.ofText at hc
    rw [hv] at hc
    simp only at hc
    split at hc
    · next hdecode => rw [hdecode, Except.ok.inj hc]
    · cases hc
  · unfold ofFile Decoder.ofBytes at hc
    simp only [hv] at hc
    split at hc
    · next hdecode => rw [hdecode, Except.ok.inj hc]
    · cases hc

/-- A catalog that is read holds the mappings of its text in their order. Whatever is added, it has
different keys and finds under each the mapping defined last, exactly if the text has different
keys. Otherwise it finds the mapping added last, or else the first one of the text. -/
theorem get_insertAll_of_isRead (h : c.IsRead v) (ms : List Mapping) :
    List.Forall₂ (fun w m => Mapping.decode w = .ok m) (items v) c.mappings ∧
      (((c.insertAll ms).keys.Nodup ∧
          ∀ platform name m, (c.insertAll ms).get platform name = .ok m ↔
            Keyed.last? Mapping.key (platform, name) (c.mappings ++ ms) = some m) ↔
        c.keys.Nodup) ∧
      ∀ platform name m, (c.insertAll ms).get platform name = .ok m ↔
        (Keyed.last? Mapping.key (platform, name) ms).or
          (Keyed.first? Mapping.key (platform, name) c.mappings) = some m := by
  refine ⟨forall₂_items h.decode_eq, ⟨?_, ?_⟩, fun platform name m => get_insertAll_eq_ok_iff c ms⟩
  · rintro ⟨hkeys, -⟩
    exact (nodup_keys_insertAll_iff c ms).mp hkeys
  · intro hkeys
    refine ⟨(nodup_keys_insertAll_iff c ms).mpr hkeys, fun platform name m => ?_⟩
    have hsame : Keyed.last? Mapping.key (platform, name) c.mappings =
        Keyed.first? Mapping.key (platform, name) c.mappings := Keyed.last?_eq_first? hkeys _
    rw [get_insertAll_eq_ok_iff, Keyed.last?_append, hsame]

/-- A text with two keys. -/
def monthlyText : String :=
  "\x7b\"configs\":[\x7b\"platform\":\"p\",\"name\":\"monthly\",\"rules\":[]\x7d,"
    ++ "\x7b\"platform\":\"p\",\"name\":\"yearly\",\"rules\":[]\x7d]\x7d"

theorem get_insertAll_of_isRead_monthly : ∃ c v,
    (Json.read? monthlyText = some v ∧ ofText monthlyText = .ok c) ∧
      let added : Mapping := ⟨"p", "monthly", [{ header := "A", path := "a" }], []⟩
      (c.insertAll [added]).keys.Nodup ∧ (c.insertAll [added]).get "p" "monthly" = .ok added ∧
        (c.insertAll [added]).get "p" "yearly" = .ok ⟨"p", "yearly", [], []⟩ := by
  obtain ⟨v, hv⟩ : ∃ v, Json.read? monthlyText = some v :=
    Option.isSome_iff_exists.mp (by rfl)
  have hc : ofText monthlyText =
      .ok ⟨[⟨"p", "monthly", [], []⟩, ⟨"p", "yearly", [], []⟩]⟩ := by rfl
  obtain ⟨-, hdistinct, -⟩ := get_insertAll_of_isRead (.inl ⟨monthlyText, hv, hc⟩)
    [⟨"p", "monthly", [{ header := "A", path := "a" }], []⟩]
  obtain ⟨hkeys, hget⟩ := hdistinct.mpr (by decide)
  exact ⟨_, v, ⟨hv, hc⟩, hkeys, (hget _ _ _).mpr rfl, (hget _ _ _).mpr rfl⟩

/-- A text that repeats a key: the later mapping is there, but cannot be found. -/
def repeatedText : String :=
  "[\x7b\"platform\":\"p\",\"name\":\"n\",\"rules\":[]\x7d,\x7b\"platform\":\"p\",\"name\":\"n\","
    ++ "\"rules\":[\x7b\"excelHeader\":\"A\",\"targetPath\":\"a\"\x7d]\x7d]"

theorem shadowed_repeatedText : ∃ c, ofText repeatedText = .ok c ∧ ¬c.keys.Nodup ∧
    ∃ found defined, c.get "p" "n" = .ok found ∧
      Keyed.last? Mapping.key ("p", "n") c.mappings = some defined ∧ found.rules = [] ∧
        defined.rules = [{ header := "A", path := "a" }] := by
  have hc : ofText repeatedText =
      .ok ⟨[⟨"p", "n", [], []⟩, ⟨"p", "n", [{ header := "A", path := "a" }], []⟩]⟩ := by
    set_option maxRecDepth 1000 in rfl
  exact ⟨_, hc, by decide, _, _, rfl, rfl, rfl, rfl⟩

end Catalog
end TableImport
