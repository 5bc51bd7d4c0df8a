import TableImport.Document
import TableImport.Expr.Basic

/-! Mappings: which column goes where, and what is computed from the result. -/
namespace TableImport

inductive CellFormat where
  | text | number | percentage | date
  deriving DecidableEq, Repr

/-- The document that a value is stored in: the record of the entity or the snapshot. -/
inductive Collection where
  | primary | secondary
  deriving DecidableEq, Repr

def Collection.name : Collection → String
  | primary => "primary"
  | secondary => "secondary"

/-- Stores the cells of one column at one path. -/
structure Rule where
  header : String
  path : String
  format : CellFormat := .text
  required : Bool := false
  collection? : Option Collection := none
  priceKind? : Option String := none
  deriving DecidableEq, Repr

namespace Rule

/-- The collection; primary where none is named. -/
def collection (r : Rule) : Collection := r.collection?.getD .primary

/-- The kind under which the rule books prices, where its path is the list of prices. -/
def price? (r : Rule) : Option String := if r.path = pricesKey then r.priceKind? else none

def ofPrice (header kind : String) : Rule :=
  { header := header, path := pricesKey, format := .number, priceKind? := some kind }

end Rule

/-- How a computed field gets its number: from an expression, or from two operands and a factor. -/
inductive Formula where
  | expression (text : String) (precision? : Option UInt32)
  | operands (op : BinaryOp) (left : String) (right? : Option String) (multiplier? : Option Float)
      (precision? : Option UInt32)

namespace Formula

def precision? : Formula → Option UInt32
  | expression _ p => p
  | operands _ _ _ _ p => p

def withPrecision (places : UInt32) : Formula → Formula
  | expression text _ => expression text (some places)
  | operands op l r m _ => operands op l r m (some places)

end Formula

/-- A field that is computed after the rules of a row. -/
structure ComputedField where
  name : String
  path : String
  collection : Collection
  formula : Formula

/-- The rules and computed fields for one platform, under a name. -/
structure Mapping where
  platform : String
  name : String
  rules : List Rule
  computedFields : List ComputedField

end TableImport
