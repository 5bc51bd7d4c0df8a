import TableImport.Config.Basic

/-! Mappings as JSON. -/
namespace TableImport

def CellFormat.names : List (String × CellFormat) :=
  [("text", .text), ("number", .number), ("percentage", .percentage), ("date", .date)]

def CellFormat.name : CellFormat → String
  | text => "text"
  | number => "number"
  | percentage => "percentage"
  | date => "date"

def CellFormat.decode : Decoder CellFormat := Decoder.oneOf CellFormat.names

def Collection.decode : Decoder Collection :=
  Decoder.oneOf [("primary", .primary), ("secondary", .secondary)]

/-- The words for the operators of two operands. -/
def BinaryOp.names : List (String × BinaryOp) :=
  [("division", .div), ("multiplication", .mul), ("addition", .add), ("subtraction", .sub)]

def BinaryOp.word : BinaryOp → String
  | div => "division"
  | mul => "multiplication"
  | add => "addition"
  | sub => "subtraction"

def BinaryOp.decode : Decoder BinaryOp := Decoder.oneOf BinaryOp.names

namespace Rule

def toJson (r : Rule) : Json :=
  .ofFields [("excelHeader", some (.string r.header)), ("targetPath", some (.string r.path)),
    ("format", some (.string r.format.name)), ("required", some (.bool r.required)),
    ("targetCollection", r.collection?.map fun c => .string c.name),
    ("priceType", r.priceKind?.map .string)]

def decode : Decoder Rule :=
  Decoder.record
    [("excelHeader", Decoder.check Decoder.text), ("targetPath", Decoder.check Decoder.text),
      ("format", Decoder.check CellFormat.decode), ("required", Decoder.check Decoder.bool),
      ("targetCollection", Decoder.check (Decoder.optional Collection.decode)),
      ("priceType", Decoder.check (Decoder.optional Decoder.text))]
    fun given => do
      let header ← Decoder.required Decoder.text (given "excelHeader")
      let path ← Decoder.required Decoder.text (given "targetPath")
      let format ← Decoder.withDefault .text CellFormat.decode (given "format")
      let required ← Decoder.withDefault false Decoder.bool (given "required")
      let collection? ←
        Decoder.withDefault none (Decoder.optional Collection.decode) (given "targetCollection")
      let priceKind? ← Decoder.withDefault none (Decoder.optional Decoder.text) (given "priceType")
      .ok ⟨header, path, format, required, collection?, priceKind?⟩

end Rule

namespace Formula

def toJson : Formula → Json
  | expression text precision? =>
    .ofFields [("expression", some (.string text)),
      ("precision", precision?.map fun p => .int p.toNat)]
  | operands op left right? multiplier? precision? =>
    .ofFields [("type", some (.string op.word)), ("operand1", some (.string left)),
      ("operand2", right?.map .string), ("multiplier", multiplier?.map .ofFloat),
      ("precision", precision?.map fun p => .int p.toNat)]

/-- A formula; the expression wins where both forms are given. -/
def decode : Decoder Formula :=
  Decoder.record
    [("expression", Decoder.check (Decoder.optional Decoder.text)),
      ("type", Decoder.check (Decoder.optional BinaryOp.decode)),
      ("operand1", Decoder.check (Decoder.optional Decoder.text)),
      ("operand2", Decoder.check (Decoder.optional Decoder.text)),
      ("multiplier", Decoder.check (Decoder.optional Decoder.float)),
      ("precision", Decoder.check (Decoder.optional Decoder.uint32))]
    fun given => do
      let text? ← Decoder.withDefault none (Decoder.optional Decoder.text) (given "expression")
      let op? ← Decoder.withDefault none (Decoder.optional BinaryOp.decode) (given "type")
      let left? ← Decoder.withDefault none (Decoder.optional Decoder.text) (given "operand1")
      let right? ← Decoder.withDefault none (Decoder.optional Decoder.text) (given "operand2")
      let multiplier? ←
        Decoder.withDefault none (Decoder.optional Decoder.float) (given "multiplier")
      let precision? ←
        Decoder.withDefault none (Decoder.optional Decoder.uint32) (given "precision")
      match text?, op?, left? with
      | some text, _, _ => .ok (expression text precision?)
      | none, none, _ => .error .formulaWithoutForm
      | none, some _, none => .error .formulaWithoutOperand
      | none, some op, some left => .ok (operands op left right? multiplier? precision?)

end Formula

namespace ComputedField

def toJson (f : ComputedField) : Json :=
  .ofFields [("name", some (.string f.name)), ("targetPath", some (.string f.path)),
    ("targetCollection", some (.string f.collection.name)), ("formula", some f.formula.toJson)]

def decode : Decoder ComputedField :=
  Decoder.record
    [("name", Decoder.check Decoder.text), ("targetPath", Decoder.check Decoder.text),
      ("targetCollection", Decoder.check Collection.decode),
      ("formula", Decoder.check Formula.decode)]
    fun given => do
      let name ← Decoder.required Decoder.text (given "name")
      let path ← Decoder.required Decoder.text (given "targetPath")
      let collection ←
        Decoder.withDefault .primary Collection.decode (given "targetCollection")
      let formula ← Decoder.required Formula.decode (given "formula")
      .ok ⟨name, path, collection, formula⟩

end ComputedField

namespace Mapping

def toJson (m : Mapping) : Json :=
  .ofFields [("platform", some (.string m.platform)), ("name", some (.string m.name)),
    ("rules", some (.array (m.rules.map Rule.toJson))),
    ("computedFields", some (.array (m.computedFields.map ComputedField.toJson)))]

def decode : Decoder Mapping :=
  Decoder.record
    [("platform", Decoder.check Decoder.text), ("name", Decoder.check Decoder.text),
      ("rules", Decoder.check (Decoder.list Rule.decode)),
      ("computedFields", Decoder.check (Decoder.list ComputedField.decode))]
    fun given => do
      let platform ← Decoder.required Decoder.text (given "platform")
      let name ← Decoder.required Decoder.text (given "name")
      let rules ← Decoder.required (Decoder.list Rule.decode) (given "rules")
      let computedFields ←
        Decoder.withDefault [] (Decoder.list ComputedField.decode) (given "computedFields")
      .ok ⟨platform, name, rules, computedFields⟩

end Mapping
end TableImport
