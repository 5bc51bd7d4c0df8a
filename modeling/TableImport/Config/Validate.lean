import TableImport.Config.Basic
import TableImport.Expr.Eval
import TableImport.Expr.Names

/-! The structure that mappings must have, and what their formulas read. -/
namespace TableImport

inductive RuleFault where
  | emptyHeader | emptyPath | emptySegment | reservedPath
  | priceElsewhere | priceWithoutKind | emptyPriceKind | priceInSecondary
  deriving DecidableEq, Repr

def RuleFault.message : RuleFault → String
  | emptyHeader => "empty excel header"
  | emptyPath => "empty target path"
  | emptySegment => "target path has an empty segment"
  | reservedPath => "\"prices\" is reserved for price history"
  | priceElsewhere => "priceType requires targetPath \"prices\""
  | priceWithoutKind => "price column without priceType"
  | emptyPriceKind => "empty priceType"
  | priceInSecondary => "price columns must target the primary collection"

inductive FieldFault where
  | emptyName | emptySegment | reservedPath | emptyExpression
  | expression (e : ExprError)

def FieldFault.message : FieldFault → String
  | emptyName => "empty name"
  | emptySegment => "empty target path segment"
  | reservedPath => "\"prices\" is reserved for price history"
  | emptyExpression => "empty expression"
  | expression e => e.message

inductive MappingError where
  | rule (header : String) (fault : RuleFault)
  | duplicateTarget (collection : Collection) (path : String) (kind? : Option String)
  | field (name : String) (fault : FieldFault)

def MappingError.message : MappingError → String
  | rule header fault => s!"Invalid mapping rule '{header}': {fault.message}"
  | duplicateTarget collection path none => s!"Duplicate mapping target {collection.name}:{path}"
  | duplicateTarget collection path (some kind) =>
    s!"Duplicate mapping target {collection.name}:{path}[{kind}]"
  | field name fault => s!"Invalid computed field '{name}': {fault.message}"

/-- The list of prices and everything below it. -/
def underPrices (path : String) : Bool := Path.first path == pricesKey

namespace Rule

/-- The first fault of a rule by itself. -/
def fault? (r : Rule) : Option RuleFault :=
  let isPrices := r.path == pricesKey
  if isBlankText r.header then some .emptyHeader
  else if Path.isBlank r.path then some .emptyPath
  else if Path.hasEmptySegment r.path then some .emptySegment
  else if !isPrices && r.collection == .primary && underPrices r.path then some .reservedPath
  else if r.priceKind?.isSome && !isPrices then some .priceElsewhere
  else if isPrices && r.collection == .primary && r.priceKind?.isNone then some .priceWithoutKind
  else if isPrices && r.collection == .primary && r.priceKind?.any isBlankText then
    some .emptyPriceKind
  else if r.priceKind?.isSome && r.collection == .secondary then some .priceInSecondary
  else none

/-- What two rules must not have in common. -/
def target (r : Rule) : Collection × String × Option String := (r.collection, r.path, r.priceKind?)

end Rule

/-- Checks rules in order; `taken` are the targets of those before. -/
def validateRules (taken : List (Collection × String × Option String)) :
    List Rule → Except MappingError Unit
  | [] => .ok ()
  | r :: rest =>
    match r.fault? with
    | some fault => .error (.rule r.header fault)
    | none =>
      if taken.contains r.target then
        .error (.duplicateTarget r.collection r.path r.priceKind?)
      else validateRules (r.target :: taken) rest

/-- The first structural fault of a computed field. -/
def ComputedField.fault? (f : ComputedField) : Option FieldFault :=
  if isBlankText f.name then some .emptyName
  else if Path.hasBlankSegment f.path then some .emptySegment
  else if f.collection == .primary && underPrices f.path then some .reservedPath
  else match f.formula with
    | .expression text _ => if isBlankText text then some .emptyExpression else none
    | .operands .. => none

def ComputedField.syntaxFault? (f : ComputedField) : Option FieldFault :=
  match f.formula with
  | .expression text _ => (Expr.check text).error?.map .expression
  | .operands .. => none

/-- Checks fields in order for a kind of fault. -/
def validateFields (fault? : ComputedField → Option FieldFault) :
    List ComputedField → Except MappingError Unit
  | [] => .ok ()
  | f :: rest =>
    match fault? f with
    | some fault => .error (.field f.name fault)
    | none => validateFields fault? rest

namespace Mapping

/-- Checks the structure of a mapping; expressions may still be malformed. -/
def validate (m : Mapping) : Except MappingError Unit := do
  validateRules [] m.rules
  validateFields ComputedField.fault? m.computedFields

/-- Checks a mapping completely, its expressions included. -/
def check (m : Mapping) : Except MappingError Unit := do
  m.validate
  validateFields ComputedField.syntaxFault? m.computedFields

end Mapping

/-- Names that start so are read from the prices. -/
def priceStart : String := "prices."

/-- Names that start so are read from the secondary document. -/
def metricsStart : String := "metrics."

def afterStart? (start text : String) : Option String :=
  (start.toList.isPrefixOf? text.toList).map String.ofList

def Rule.produced (r : Rule) : String :=
  match r.price? with
  | some kind => priceStart ++ kind
  | none => r.path

def Formula.mentioned : Formula → List String
  | expression text _ => Expr.mentioned text
  | operands _ left right? _ _ => left :: right?.toList

/-- Whether later formulas can read a field: names that start with the metrics' beginning are read
from the secondary document, all others from the primary one. -/
def ComputedField.isReadable (f : ComputedField) : Bool :=
  let inMetrics := (afterStart? metricsStart f.path).isSome
  match f.collection with
  | .secondary => inMetrics
  | .primary => !inMetrics

/-- A name that a computed field reads and nothing before it stores. -/
structure Unresolved where
  field : String
  name : String
  deriving DecidableEq, Repr

def unresolvedFrom (known : List String) : List ComputedField → List Unresolved
  | [] => []
  | f :: rest =>
    (f.formula.mentioned.filter fun v => !known.contains v).map (⟨f.name, ·⟩) ++
      unresolvedFrom (if f.isReadable then known ++ [f.path] else known) rest

/-- The names that are missing on every row, in the order of the fields that read them. -/
def Mapping.unresolved (m : Mapping) : List Unresolved :=
  unresolvedFrom (m.rules.map Rule.produced) m.computedFields

end TableImport
