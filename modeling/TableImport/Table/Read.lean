import TableImport.Table.Csv
import TableImport.Json.Decode
import TableImport.File.Content

/-! Reading tables from files, the format chosen by the name. -/
namespace TableImport

inductive TableError where
  | file
  | delimitedText
  | json (e : DecodeError)
  | unsupportedFormat (extension : String)

def TableError.message : TableError → String
  | file => "IO error: the file cannot be read"
  | delimitedText => "CSV error: a record cannot be read"
  | json e => "JSON error: " ++ e.message
  | unsupportedFormat extension => "Unsupported table format: " ++ extension

def Cell.decode : Decoder Cell
  | .null => .ok .empty
  | .bool b => .ok (.bool b)
  | .string s => .ok (.text s)
  | v => (Decoder.float v).map .number

/-- A table as a JSON list of rows. -/
def Table.decode : Decoder Table := Decoder.list (Decoder.list Cell.decode)

def Table.ofJsonBytes (bytes : ByteArray) : Except TableError Table :=
  match Table.decode.ofBytes bytes with
  | .ok t => .ok t
  | .error e => .error (.json e)

def Table.ofCsvBytes (o : Csv.ReadOptions) (bytes : ByteArray) : Except TableError Table :=
  match Csv.read? o bytes.toList with
  | some t => .ok t
  | none => .error .delimitedText

inductive TableFormat where
  | json
  | delimited (o : Csv.ReadOptions)

/-- The last part of a path that is not empty or a dot. -/
def fileName (path : String) : List Char :=
  let parts := path.toList.splitOnP (· == '/')
  (parts.filter fun p => p != [] && p != ['.']).getLast?.getD []

/-- What follows the last dot of a file's name, unless the name has no dot but a first one. -/
def fileExtension (path : String) : String :=
  let name := fileName path
  let after := (name.reverse.takeWhile (· != '.')).reverse
  if after.length + 1 < name.length ∧ name ≠ ['.', '.'] then String.ofList after else ""

/-- The format that a file's name calls for; tabs separate the fields of `tsv` files. -/
def tableFormat (path : String) (o : Csv.ReadOptions) : Except TableError TableFormat :=
  match (fileExtension path).map Char.toLower with
  | "json" => .ok .json
  | "tsv" => .ok (.delimited { o with delimiter := 9 })
  | "csv" | "txt" => .ok (.delimited o)
  | other => .error (.unsupportedFormat other)

def TableFormat.read (f : TableFormat) (bytes : ByteArray) : Except TableError Table :=
  match f with
  | .json => Table.ofJsonBytes bytes
  | .delimited o => Table.ofCsvBytes o bytes

/-- The table of a file in a format. A file that opens and cannot be read is no text of it. -/
def TableFormat.readFile (f : TableFormat) : FileContent → Except TableError Table
  | .missing => .error .file
  | .unreadable =>
    .error <| match f with
      | .json => .json .text
      | .delimited _ => .delimitedText
  | .bytes content => f.read content

/-- The table of the file at a path. The format is settled before the file is looked at. -/
def readTable (path : String) (found : FileContent) (o : Csv.ReadOptions) :
    Except TableError Table := do
  let f ← tableFormat path o
  f.readFile found

end TableImport
