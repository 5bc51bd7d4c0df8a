import TableImport.Table.Coerce
import TableImport.Row.Computed

/-! What the rules obtain from one row. -/
namespace TableImport

/-- The texts of a header row; empty cells have none. -/
abbrev Header := List (Option String)

def Header.ofRow (row : Row) : Header := row.map Cell.text?

/-- The cell under the first header of a text; none without that column or in a shorter row. -/
def Header.cell? (h : Header) (row : Row) (name : String) : Option Cell :=
  (h.findIdx? fun t => t == some name).bind fun i => row[i]?

inductive Reading where
  | price (kind : String) (amount : Float)
  | value (v : Json)
  | nothing
  | failure

namespace Rule

def mustHave (r : Rule) : Bool := r.required && r.collection == .primary

/-- Reads a rule's cell. A required price fails without a number; another required primary rule
fails without a value, except that an unreadable date is passed over. -/
def read (r : Rule) (cell? : Option Cell) : Reading :=
  match r.price? with
  | some kind =>
    match cell?.bind Cell.number? with
    | some amount => .price kind amount
    | none => if r.required then .failure else .nothing
  | none =>
    match cell?.map (Cell.coerce · r.format) with
    | some (.value v) => .value v
    | some (.invalid _) =>
      if r.mustHave && r.format != .date then .failure else .nothing
    | some .missing | none => if r.mustHave then .failure else .nothing

end Rule

/-- What the rules up to some point have obtained: the documents, and the prices in rule order. -/
structure Obtained where
  documents : Documents
  prices : List PriceRecord

namespace Obtained

def none : Obtained := ⟨.empty, []⟩

/-- Stores what a rule reads; the header of a rule that fails is the error. -/
def add (period : PricePeriod) (header : Header) (row : Row) (o : Obtained) (r : Rule) :
    Except String Obtained :=
  match r.read (header.cell? row r.header), r.collection with
  | .failure, _ => .error r.header
  | .nothing, _ => .ok o
  | .price kind amount, _ =>
    .ok { o with prices := o.prices ++ [PriceRecord.ofMajor period kind amount] }
  | .value v, .primary =>
    .ok { o with documents.primary := o.documents.primary.setPath r.path v }
  | .value v, .secondary =>
    .ok { o with documents.secondary := o.documents.secondary.setPath r.path v }

/-- Applies rules in order, up to the first that fails. -/
def addAll (period : PricePeriod) (header : Header) (row : Row) (o : Obtained) :
    List Rule → Except String Obtained
  | [] => .ok o
  | r :: rest =>
    match o.add period header row r with
    | .ok o => addAll period header row o rest
    | .error name => .error name

def isEmpty (o : Obtained) : Bool :=
  o.documents.primary.isEmpty && o.documents.secondary.isEmpty && o.prices.isEmpty

/-- The documents with the prices in the primary one. -/
def booked (o : Obtained) : Documents :=
  if o.prices.isEmpty then o.documents
  else { o.documents with primary := o.documents.primary.mergePrices o.prices }

end Obtained

namespace Documents

/-- Stores the number of a computed field, if it has one. -/
def addComputed (d : Documents) (c : CompiledField) : Documents :=
  match (c.evaluate d).bind jsonNumber? with
  | some v =>
    match c.field.collection with
    | .primary => { d with primary := d.primary.setPath c.field.path v }
    | .secondary => { d with secondary := d.secondary.setPath c.field.path v }
  | none => d

end Documents
end TableImport
