import TableImport.Table.Cell
import TableImport.Number.Decimal

/-! Tables as delimited text: records of fields, with quotes around fields that need them. -/
namespace TableImport.Csv

/-- The bytes that separate and enclose fields. -/
structure Dialect where
  delimiter : UInt8 := 44
  quote : UInt8 := 34
  deriving DecidableEq, Repr

abbrev Bytes := List UInt8

abbrev Record := List Bytes

def lineFeed : UInt8 := 10

def carriageReturn : UInt8 := 13

def isEnd (b : UInt8) : Bool := b == carriageReturn || b == lineFeed

inductive Place where
  | recordStart
  | fieldStart
  | plain
  | quoted
  | afterQuote

/-- What a byte does to the field and the record being read. -/
inductive Effect where
  | skip | keep | endField | endRecord

def stepInField (d : Dialect) (b : UInt8) : Place × Effect :=
  if b = d.delimiter then (.fieldStart, .endField)
  else if isEnd b then (.recordStart, .endRecord)
  else (.plain, .keep)

/-- Line ends between records are passed over. A quote counts only at the start of a field; inside
quotes two of them stand for one, and what follows the closing one is added to the field. -/
def step (d : Dialect) (place : Place) (b : UInt8) : Place × Effect :=
  match place with
  | .recordStart =>
    if isEnd b then (.recordStart, .skip)
    else if b = d.quote then (.quoted, .skip)
    else stepInField d b
  | .fieldStart => if b = d.quote then (.quoted, .skip) else stepInField d b
  | .plain => stepInField d b
  | .quoted => if b = d.quote then (.afterQuote, .skip) else (.quoted, .keep)
  | .afterQuote => if b = d.quote then (.quoted, .keep) else stepInField d b

/-- The records of a text. `record` holds the fields that are complete and `field` the bytes of the
one being read, both the last first. -/
def records (d : Dialect) (place : Place) (record : Record) (field : Bytes) : Bytes → List Record
  | [] =>
    match place with
    | .recordStart => []
    | _ => [(field.reverse :: record).reverse]
  | b :: bs =>
    match step d place b with
    | (place, .skip) => records d place record field bs
    | (place, .keep) => records d place record (b :: field) bs
    | (place, .endField) => records d place (field.reverse :: record) [] bs
    | (place, .endRecord) => (field.reverse :: record).reverse :: records d place [] [] bs

/-- The bytes without a mark of the byte order at their head. -/
def dropByteOrderMark : Bytes → Bytes
  | 0xEF :: 0xBB :: 0xBF :: bs => bs
  | bs => bs

def readRecords (d : Dialect) (bs : Bytes) : List Record :=
  records d .recordStart [] [] (dropByteOrderMark bs)

/-- A field with a byte that would end it. -/
def needsQuotes (d : Dialect) (field : Bytes) : Bool :=
  field.any fun b => b == d.delimiter || b == d.quote || isEnd b

def enclose (d : Dialect) (field : Bytes) : Bytes :=
  d.quote :: field.flatMap (fun b => if b = d.quote then [b, b] else [b]) ++ [d.quote]

def writeField (d : Dialect) (field : Bytes) : Bytes :=
  if needsQuotes d field then enclose d field else field

/-- Fields between delimiters; a record without any byte is written as an empty field in quotes. -/
def writeRecord (d : Dialect) (record : Record) : Bytes :=
  let line := [d.delimiter].intercalate (record.map (writeField d))
  if line = [] then enclose d [] else line

def writeRecords (d : Dialect) (terminator : Bytes) (rs : List Record) : Bytes :=
  rs.flatMap fun r => writeRecord d r ++ terminator

def bytesOf (s : String) : Bytes := s.toUTF8.toList

def textOf? (bs : Bytes) : Option String := String.fromUTF8? (ByteArray.mk bs.toArray)

structure ReadOptions extends Dialect where
  trim : Bool := true
  detectNumbers : Bool := false

def ReadOptions.tsv : ReadOptions := { delimiter := 9 }

def textCell (trimmed : Bool) (s : String) : Cell :=
  Cell.ofText (if trimmed then trim s else s)

/-- A number, if the text is exactly how a cell shows it; else a text. -/
def detectedCell (trimmed : Bool) (s : String) : Cell :=
  let t := trim s
  let isPlain := t.toList.all fun c => isDigit c || c == '.' || c == '-' || c == '+'
  match (if isPlain && !t.isEmpty then readFloat? t else none) with
  | some x =>
    if x.isFinite && numberText x == t then .number x else textCell trimmed s
  | none => if t.isEmpty then .empty else textCell trimmed s

/-- The cells of a record; the header's are never numbers. -/
def rowOf? (o : ReadOptions) (isHeader : Bool) (record : Record) : Option Row :=
  record.mapM fun field => (textOf? field).map fun s =>
    if o.detectNumbers && !isHeader then detectedCell o.trim s else textCell o.trim s

/-- The table of a text, if all its fields are well-formed. -/
def read? (o : ReadOptions) (bs : Bytes) : Option Table :=
  match readRecords o.toDialect bs with
  | [] => some []
  | header :: rest => do
    let header ← rowOf? o true header
    let rows ← rest.mapM (rowOf? o false)
    some (header :: rows)

inductive LineEnd where
  | lf | crlf
  deriving DecidableEq, Repr

def LineEnd.bytes : LineEnd → Bytes
  | lf => [lineFeed]
  | crlf => [carriageReturn, lineFeed]

structure WriteOptions extends Dialect where
  lineEnd : LineEnd := .lf

/-- A table as delimited text, each cell as it is displayed. -/
def write (o : WriteOptions) (table : Table) : Bytes :=
  writeRecords o.toDialect o.lineEnd.bytes (table.map fun row => row.map fun c => bytesOf c.display)

end TableImport.Csv
