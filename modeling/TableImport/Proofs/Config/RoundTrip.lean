import TableImport.Config.Catalog
import TableImport.Proofs.Config.Rules
import TableImport.Proofs.Json.Fields

/-! Mappings and catalogs read back from the JSON values that they are written as. -/
namespace TableImport
open Decoder

theorem CellFormat.decode_name (f : CellFormat) : CellFormat.decode (.string f.name) = .ok f := by
  cases f <;> rfl

theorem Collection.decode_name (c : Collection) : Collection.decode (.string c.name) = .ok c := by
  cases c <;> rfl

theorem BinaryOp.decode_word (op : BinaryOp) : BinaryOp.decode (.string op.word) = .ok op := by
  cases op <;> rfl

theorem Rule.decode_toJson (r : Rule) : decode r.toJson = .ok r := by
  have hcollection : ∀ c ∈ r.collection?,
      optional Collection.decode (.string c.name) = .ok (some c) :=
    fun c _ => optional_eq_ok nofun c.decode_name
  have hkind : ∀ kind ∈ r.priceKind?, optional text (.string kind) = .ok (some kind) :=
    fun _ _ => rfl
  apply record_ofFields
  · show ["excelHeader", "targetPath", "format", "required", "targetCollection",
      "priceType"].Nodup
    decide
  · simp only [List.forall_mem_cons, List.not_mem_nil, false_implies, implies_true, and_true]
    exact ⟨⟨_, rfl, check_some rfl⟩, ⟨_, rfl, check_some rfl⟩,
      ⟨_, rfl, check_some r.format.decode_name⟩, ⟨_, rfl, check_some rfl⟩,
      ⟨_, rfl, check_optional_map hcollection⟩, ⟨_, rfl, check_optional_map hkind⟩⟩
  · intro given hgiven _
    simp only [List.forall_mem_cons] at hgiven
    obtain ⟨hheader, hpath, hformat, hrequired, hcollectionGiven, hkindGiven, -⟩ := hgiven
    rw [hheader, hpath, hformat, hrequired, hcollectionGiven, hkindGiven,
      withDefault_optional_map hcollection, withDefault_optional_map hkind]
    simp only [withDefault, CellFormat.decode_name]
    rfl

namespace Formula

/-- A factor that can be written as JSON, where there is one. -/
def HasFiniteMultiplier : Formula → Prop
  | expression _ _ => True
  | operands _ _ _ multiplier? _ => ∀ x ∈ multiplier?, x.isFinite = true

theorem optional_precision (precision? : Option UInt32) :
    ∀ p ∈ precision?, optional uint32 (.int p.toNat) = .ok (some p) :=
  fun p _ => optional_eq_ok nofun (uint32_toNat p)

theorem decode_expression (text : String) (precision? : Option UInt32) :
    decode (expression text precision?).toJson = .ok (expression text precision?) := by
  have hprecision := optional_precision precision?
  apply record_ofFields
  · show ["expression", "precision"].Nodup
    decide
  · simp only [List.forall_mem_cons, List.not_mem_nil, false_implies, implies_true, and_true]
    exact ⟨⟨_, rfl, check_some rfl⟩, ⟨_, rfl, check_optional_map hprecision⟩⟩
  · intro given hgiven hother
    simp only [List.forall_mem_cons] at hgiven
    obtain ⟨htext, hprecisionGiven, -⟩ := hgiven
    -- The keys of the other form are not there, so each of them is read as absent.
    rw [htext, hprecisionGiven, hother "type" (by simp), hother "operand1" (by simp),
      hother "operand2" (by simp), hother "multiplier" (by simp),
      withDefault_optional_map hprecision]
    rfl

theorem decode_operands (op : BinaryOp) (left : String) (right? : Option String)
    {multiplier? : Option Float} (h : ∀ x ∈ multiplier?, x.isFinite = true)
    (precision? : Option UInt32) :
    decode (operands op left right? multiplier? precision?).toJson =
      .ok (operands op left right? multiplier? precision?) := by
  have hop : optional BinaryOp.decode (.string op.word) = .ok (some op) :=
    optional_eq_ok nofun op.decode_word
  have hright : ∀ name ∈ right?, optional text (.string name) = .ok (some name) := fun _ _ => rfl
  have hmultiplier : ∀ x ∈ multiplier?, optional float (.ofFloat x) = .ok (some x) := by
    intro x hx
    rw [Json.ofFloat, if_pos (h x hx)]
    rfl
  have hprecision := optional_precision precision?
  apply record_ofFields
  · show ["type", "operand1", "operand2", "multiplier", "precision"].Nodup
    decide
  · simp only [List.forall_mem_cons, List.not_mem_nil, false_implies, implies_true, and_true]
    exact ⟨⟨_, rfl, check_some hop⟩, ⟨_, rfl, check_some rfl⟩,
      ⟨_, rfl, check_optional_map hright⟩, ⟨_, rfl, check_optional_map hmultiplier⟩,
      ⟨_, rfl, check_optional_map hprecision⟩⟩
  · intro given hgiven hother
    simp only [List.forall_mem_cons] at hgiven
    obtain ⟨hopGiven, hleft, hrightGiven, hmultiplierGiven, hprecisionGiven, -⟩ := hgiven
    rw [hopGiven, hleft, hrightGiven, hmultiplierGiven, hprecisionGiven,
      hother "expression" (by simp), withDefault_optional_map hright,
      withDefault_optional_map hmultiplier, withDefault_optional_map hprecision]
    simp only [withDefault, hop]
    rfl

theorem decode_toJson {f : Formula} (h : f.HasFiniteMultiplier) : decode f.toJson = .ok f := by
  cases f with
  | expression text precision? => exact decode_expression text precision?
  | operands op left right? multiplier? precision? =>
    exact decode_operands op left right? h precision?

end Formula

theorem ComputedField.decode_toJson {f : ComputedField} (h : f.formula.HasFiniteMultiplier) :
    decode f.toJson = .ok f := by
  have hformula := Formula.decode_toJson h
  apply record_ofFields
  · show ["name", "targetPath", "targetCollection", "formula"].Nodup
    decide
  · simp only [List.forall_mem_cons, List.not_mem_nil, false_implies, implies_true, and_true]
    exact ⟨⟨_, rfl, check_some rfl⟩, ⟨_, rfl, check_some rfl⟩,
      ⟨_, rfl, check_some f.collection.decode_name⟩, ⟨_, rfl, check_some hformula⟩⟩
  · intro given hgiven _
    simp only [List.forall_mem_cons] at hgiven
    obtain ⟨hname, hpath, hcollection, hformulaGiven, -⟩ := hgiven
    rw [hname, hpath, hcollection, hformulaGiven]
    simp only [withDefault, required, Collection.decode_name, hformula]
    rfl

namespace Mapping
variable {m : Mapping}

/-- The factors of the computed fields can be written as JSON. -/
def HasFiniteMultipliers (m : Mapping) : Prop :=
  ∀ f ∈ m.computedFields, f.formula.HasFiniteMultiplier

theorem decode_toJson (h : m.HasFiniteMultipliers) : decode m.toJson = .ok m := by
  have hrules : list Rule.decode (.array (m.rules.map Rule.toJson)) = .ok m.rules :=
    list_map fun r _ => r.decode_toJson
  have hfields : list ComputedField.decode
      (.array (m.computedFields.map ComputedField.toJson)) = .ok m.computedFields :=
    list_map fun f hf => ComputedField.decode_toJson (h f hf)
  apply record_ofFields
  · show ["platform", "name", "rules", "computedFields"].Nodup
    decide
  · simp only [List.forall_mem_cons, List.not_mem_nil, false_implies, implies_true, and_true]
    exact ⟨⟨_, rfl, check_some rfl⟩, ⟨_, rfl, check_some rfl⟩, ⟨_, rfl, check_some hrules⟩,
      ⟨_, rfl, check_some hfields⟩⟩
  · intro given hgiven _
    simp only [List.forall_mem_cons] at hgiven
    obtain ⟨hplatform, hname, hrulesGiven, hfieldsGiven, -⟩ := hgiven
    rw [hplatform, hname, hrulesGiven, hfieldsGiven]
    simp only [withDefault, required, hrules, hfields]
    rfl

end Mapping

namespace Catalog

theorem decode_toJson {c : Catalog} (h : ∀ m ∈ c.mappings, m.HasFiniteMultipliers) :
    decode c.toJson = .ok c := by
  have hmappings : list Mapping.decode (.array (c.mappings.map Mapping.toJson)) = .ok c.mappings :=
    list_map fun m hm => Mapping.decode_toJson (h m hm)
  show record [("configs", check (list Mapping.decode))]
    (fun given => (withDefault [] (list Mapping.decode) (given "configs")).map Catalog.mk)
    (.ofFields [("configs", some (.array (c.mappings.map Mapping.toJson)))]) = .ok c
  apply record_ofFields
  · show ["configs"].Nodup
    decide
  · simp only [List.forall_mem_cons, List.not_mem_nil, false_implies, implies_true, and_true]
    exact ⟨_, rfl, check_some hmappings⟩
  · intro given hgiven _
    simp only [List.forall_mem_cons] at hgiven
    rw [hgiven.1]
    simp only [withDefault, hmappings]
    rfl

end Catalog
end TableImport
