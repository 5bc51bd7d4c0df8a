import TableImport.Import

/-! The commands of the program, their options, and the values that options take. -/
namespace TableImport.Command

/-- A whole number in decimal digits, with an optional sign, within bounds. -/
def readInt? (lo hi : Int) (s : String) : Option Int :=
  let (negative, ds) := takeSign s.toList
  if ds = [] ∨ ¬ds.all isDigit then none
  else
    let n : Int := Nat.ofDigitChars 10 ds 0
    let i := if negative then -n else n
    if lo ≤ i ∧ i ≤ hi then some i else none

def readYear? (s : String) : Option Int32 := (readInt? (-2 ^ 31) (2 ^ 31 - 1) s).map Int32.ofInt

def readMonth? (s : String) : Option UInt32 :=
  (readInt? 0 (2 ^ 32 - 1) s).map fun i => UInt32.ofNat i.toNat

/-- A seed; a minus sign is refused even before a zero. -/
def readSeed? (s : String) : Option UInt64 :=
  if s.toList.head? = some '-' then none
  else (readInt? 0 (2 ^ 64 - 1) s).map fun i => UInt64.ofNat i.toNat

def readChar? (s : String) : Option Char :=
  match s.toList with
  | [c] => some c
  | _ => none

def isPath (s : String) : Bool := !s.isEmpty

/-- An option with a value: its long name, its meaning, its letter, and the values that it takes. -/
structure OptionSpec where
  name : String
  about : String
  letter? : Option Char := none
  required : Bool := false
  default? : Option String := none
  accepts : String → Bool := fun _ => true

inductive Flag where
  | verbose | help | version
  deriving DecidableEq, Repr

def Flag.name : Flag → String
  | verbose => "verbose"
  | help => "help"
  | version => "version"

def Flag.letter : Flag → Char
  | verbose => 'v'
  | help => 'h'
  | version => 'V'

/-- An argument that is no option: one, or as many as are wanted. -/
structure ArgumentSpec where
  name : String
  about : String
  repeated : Bool := false

/-- A word of the command line with its options, and the argument that it takes beside them. -/
structure CommandSpec where
  name : String
  about : String
  flags : List Flag := [.verbose, .help]
  options : List OptionSpec := []
  argument? : Option ArgumentSpec := none

def catalogOption : OptionSpec :=
  { name := "config", about := "Catalog file (JSON)", letter? := some 'c', required := true
    accepts := isPath }

def importOptions : List OptionSpec :=
  [catalogOption,
    { name := "platform", about := "Platform of the configuration to apply", letter? := some 'p'
      required := true },
    { name := "name", about := "Name of the configuration to apply", letter? := some 'n'
      required := true },
    { name := "input", about := "Input table (csv, tsv, txt or json)", letter? := some 'i'
      required := true, accepts := isPath },
    { name := "year", about := "Year prices are booked against", required := true
      accepts := fun s => (readYear? s).isSome },
    { name := "month", about := "Month prices are booked against (1-12)", required := true
      accepts := fun s => (readMonth? s).isSome },
    { name := "snapshot-date"
      about := "Snapshot date (YYYY-MM-DD, default: first day of the price month)"
      accepts := fun s => (Date.read? s).isSome },
    { name := "snapshot-type", about := "Snapshot type stamped on secondary documents"
      default? := some "monthly" },
    { name := "data-source", about := "Data source stamped on secondary documents"
      default? := some "spreadsheet" },
    { name := "key-path", about := "Dotted path of the natural key in primary documents" },
    { name := "entity-ids", about := "JSON object mapping natural keys to stored entity ids"
      accepts := isPath },
    { name := "seed", about := "Seed for reproducible random snapshot ids"
      accepts := fun s => (readSeed? s).isSome },
    { name := "sequential-ids"
      about := "Use sequential snapshot ids with this prefix instead of random ones" },
    { name := "delimiter", about := "Field delimiter for csv/txt input", letter? := some 'd'
      default? := some ",", accepts := fun s => (readChar? s).isSome },
    { name := "output", about := "Output JSON file (default: stdout)", letter? := some 'o'
      accepts := isPath },
    { name := "rejects", about := "Write rejected rows to this CSV file", accepts := isPath }]

/-- The program itself, with what may stand before a command's word. -/
def general : CommandSpec :=
  { name := "", about := "Configuration-driven spreadsheet import tool"
    flags := [.verbose, .help, .version] }

def importSpec : CommandSpec :=
  { name := "import"
    about := "Map a CSV, TSV or JSON table and print the resulting documents as JSON"
    options := importOptions }

def checkExpressionSpec : CommandSpec :=
  { name := "check-expr", about := "Check one computed-field expression and list its variables"
    argument? := some { name := "EXPRESSION", about := "The expression to check" } }

def checkCatalogSpec : CommandSpec :=
  { name := "check-config", about := "Validate every configuration in a catalog file"
    options := [catalogOption] }

def helpSpec : CommandSpec :=
  { name := "help", about := "Print this message or the help of the given subcommand(s)"
    flags := []
    argument? := some
      { name := "COMMAND", about := "Print help for the subcommand(s)", repeated := true } }

def commands : List CommandSpec := [importSpec, checkExpressionSpec, checkCatalogSpec, helpSpec]

def CommandSpec.ofName? (name : String) : Option CommandSpec :=
  commands.find? fun c => c.name == name

end TableImport.Command
