import TableImport.Path
import TableImport.Price.Codec
import TableImport.Number.Decimal

/-! Documents: nested JSON objects addressed by dotted paths, with a list of prices. -/
namespace TableImport

def pricesKey : String := "prices"

structure Document where
  fields : Assoc Json

/-- The value inside a value at the segments of a path. -/
def Json.at? : Json → List String → Option Json
  | v, [] => some v
  | .object fields, s :: rest => (Assoc.get? s fields).bind fun v => v.at? rest
  | _, _ :: _ => none

/-- The object under a key; an empty one where there is none. -/
def Assoc.child (key : String) (fields : Assoc Json) : Assoc Json :=
  ((get? key fields).bind Json.object?).getD []

/-- The fields with a value at the segments of a path. What lies on the way and is not an object
gives place to one. -/
def Assoc.setAt (value : Json) : List String → Assoc Json → Assoc Json
  | [], fields => fields
  | [s], fields => insert s value fields
  | s :: t :: rest, fields => insert s (.object (setAt value (t :: rest) (child s fields))) fields

namespace Document

def empty : Document := ⟨[]⟩

instance : Inhabited Document := ⟨empty⟩

def isEmpty (d : Document) : Bool := d.fields.isEmpty

def size (d : Document) : Nat := d.fields.length

def keys (d : Document) : List String := d.fields.map Prod.fst

def toJson (d : Document) : Json := .object d.fields

def get? (d : Document) (key : String) : Option Json := Assoc.get? key d.fields

def insert (d : Document) (key : String) (value : Json) : Document :=
  ⟨Assoc.insert key value d.fields⟩

def erase (d : Document) (key : String) : Document := ⟨Assoc.erase key d.fields⟩

/-- The value at a dotted path; none where a key is missing or an object is not there. -/
def getPath? (d : Document) (path : String) : Option Json := d.toJson.at? (Path.segments path)

def setPath (d : Document) (path : String) (value : Json) : Document :=
  ⟨Assoc.setAt value (Path.segments path) d.fields⟩

/-- The number at a dotted path; a text is read as one. -/
def getNumber? (d : Document) (path : String) : Option Float :=
  match d.getPath? path with
  | some (.string s) => readFloat? (trim s)
  | some v => v.float?
  | none => none

/-- The stored prices, without the entries that are none. -/
def prices (d : Document) : List PriceRecord :=
  match d.get? pricesKey with
  | some (.array items) => items.filterMap fun v => (PriceRecord.decode v).toOption
  | _ => []

def findPrice? (d : Document) (kind : String) : Option PriceRecord :=
  d.prices.find? fun r => r.kind == kind

def setPrices (d : Document) (prices : List PriceRecord) : Document :=
  d.insert pricesKey (.array (prices.map PriceRecord.toJson))

/-- Whether a stored entry is for the month and kind of a price. -/
def occupiesSlot (entry : Assoc Json) (r : PriceRecord) : Bool :=
  (Assoc.get? "year" entry).bind Json.wholeNumber? == some r.year.toInt &&
    (Assoc.get? "month" entry).bind Json.wholeNumber? == some (r.month.toNat : Int) &&
    (Assoc.get? "type" entry).bind Json.string? == some r.kind

/-- A stored entry with a price's fields written over its own. -/
def overwrite (entry : Assoc Json) (r : PriceRecord) : Assoc Json :=
  r.fields.foldl (fun e f => Assoc.insert f.1 f.2 e) entry

/-- Writes a price over the first entry for its month and kind, or adds it at the end. -/
def putPrice (r : PriceRecord) : List Json → List Json
  | [] => [r.toJson]
  | .object entry :: rest =>
    if occupiesSlot entry r then .object (overwrite entry r) :: rest
    else .object entry :: putPrice r rest
  | v :: rest => v :: putPrice r rest

/-- Puts prices into the stored list; entries that are not for them stay as they are, and so
does what is stored in place of a list. -/
def mergePrices (d : Document) (incoming : List PriceRecord) : Document :=
  let merged (items : List Json) : Document :=
    d.insert pricesKey (.array (incoming.foldl (fun items r => putPrice r items) items))
  match d.get? pricesKey with
  | none | some .null => merged []
  | some (.array items) => merged items
  | some _ => d

/-- The existing document with the incoming one's fields over it and its prices merged. -/
def upsert (existing incoming : Document) : Document :=
  let store (d : Document) (f : String × Json) : Document :=
    if f.1 = pricesKey then d.mergePrices incoming.prices else d.insert f.1 f.2
  incoming.fields.foldl store existing

end Document
end TableImport
