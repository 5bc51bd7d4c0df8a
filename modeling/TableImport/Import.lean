import TableImport.Config.Catalog
import TableImport.Row.Summary
import TableImport.Table.Read

/-! Import jobs: a mapping from a catalog applied to a table. -/
namespace TableImport

/-- Why an import does not take place. -/
inductive ImportError where
  | invalidPeriod (year : Int32) (month : UInt32)
  | unknownMapping (platform name : String)
  | mapping (e : MappingError)
  | catalog (e : DecodeError)
  | catalogFile
  | table (path : String) (e : TableError)

def ImportError.message : ImportError → String
  | invalidPeriod year month => s!"Invalid price period: year {year.toInt}, month {month.toNat}"
  | unknownMapping platform name => s!"Unknown mapping configuration: {platform}/{name}"
  | mapping e => e.message
  | catalog e => "JSON error: " ++ e.message
  | catalogFile => "IO error: the file cannot be read"
  | table path e => path ++ ": " ++ e.message

def PricePeriod.ofYearMonth (year : Int32) (month : UInt32) : Except ImportError PricePeriod :=
  match PricePeriod.of? year month with
  | some p => .ok p
  | none => .error (.invalidPeriod year month)

/-- Which mapping is applied, and for which month and snapshot. -/
structure ImportRequest where
  platform : String
  name : String
  period : PricePeriod
  context : Context

namespace Catalog

def ofText (text : String) : Except ImportError Catalog :=
  match Decoder.ofText Catalog.decode text with
  | .ok c => .ok c
  | .error e => .error (.catalog e)

/-- The catalog in a file. -/
def ofFile : FileContent → Except ImportError Catalog
  | .missing => .error .catalogFile
  | .unreadable => .error (.catalog .text)
  | .bytes content =>
    match Decoder.ofBytes Catalog.decode content with
    | .ok c => .ok c
    | .error e => .error (.catalog e)

/-- The mapping of a key. -/
def get (c : Catalog) (platform name : String) : Except ImportError Mapping :=
  match c.get? platform name with
  | some m => .ok m
  | none => .error (.unknownMapping platform name)

/-- Maps a table with the requested mapping, once this has been checked. -/
def importTable (c : Catalog) (r : ImportRequest) (table : Table) (ids : IdSource) :
    Except ImportError Output := do
  let m ← c.get r.platform r.name
  match m.check with
  | .ok () => .ok ((Engine.ofMapping m r.context r.period).mapTable table ids).1
  | .error e => .error (.mapping e)

/-- Maps the table of the file at a path. -/
def importFile (c : Catalog) (r : ImportRequest) (path : String) (found : FileContent)
    (ids : IdSource) : Except ImportError Output :=
  match readTable path found {} with
  | .ok table => c.importTable r table ids
  | .error e => .error (.table path e)

end Catalog
end TableImport
