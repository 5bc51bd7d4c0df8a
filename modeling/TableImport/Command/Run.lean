import TableImport.Command.Arguments
import TableImport.File.Tree

/-! Running commands against files. -/
namespace TableImport.Command

/-- The files and the source of fresh random numbers that commands work with. -/
structure Host (m : Type → Type) where
  /-- What is found under a path. -/
  read : String → m FileContent
  /-- Whether the file could be written. -/
  write : String → ByteArray → m Bool
  fresh : m UInt64

/-- An error with what caused it, the nearest cause first. -/
structure Failure where
  message : String
  causes : List String := []

/-- What a command says: its output, the lines beside it, and the error that ended it. -/
structure Report where
  output : String := ""
  notes : List String := []
  failure? : Option Failure := none

/-- The causes of a malformed JSON text; those with a wording of their own stand alone once more. -/
def jsonCauses (e : DecodeError) : List String :=
  let line := "JSON error: " ++ e.message
  match e with
  | .text | .shape => [line]
  | _ => [line, e.message]

def importCauses : ImportError → List String
  | .catalog e => jsonCauses e
  | e => [e.message]

def tableCauses : TableError → List String
  | .json e => jsonCauses e
  | e => [e.message]

def stopWith {α : Type} (message : String) (causes : List String := []) : Except Failure α :=
  .error ⟨message, causes⟩

def loadCatalog (path : String) (found : FileContent) : Except Failure Catalog :=
  match Catalog.ofFile found with
  | .ok c => .ok c
  | .error e => stopWith s!"Failed to load catalog '{path}'" (importCauses e)

def loadEntityIds (path : String) (found : FileContent) : Except Failure (Assoc String) :=
  let malformed : Failure := ⟨s!"'{path}' is not a JSON object of strings", []⟩
  match found with
  | .missing => stopWith s!"Failed to open '{path}'"
  | .unreadable => .error malformed
  | .bytes content =>
    match Json.readTexts? content with
    | some ids => .ok ids
    | none => .error malformed

def snapshotDate (job : ImportJob) : Except Failure Date :=
  match job.snapshotDate?.or (Date.of? job.year.toInt job.month.toNat 1) with
  | some d => .ok d
  | none => stopWith s!"Invalid price month {job.year.toInt}-{job.month.toNat}"

def isAscii (c : Char) : Bool := decide (c.toNat < 128)

def loadTable (job : ImportJob) (found : FileContent) : Except Failure Table :=
  if !isAscii job.delimiter then stopWith "Delimiter must be a single ASCII character"
  else match readTable job.input found { delimiter := UInt8.ofNat job.delimiter.toNat } with
    | .ok t => .ok t
    | .error e => stopWith s!"Failed to read '{job.input}'" (tableCauses e)

/-- What an import reads: its files, and a fresh seed. -/
structure ImportInputs where
  catalog : FileContent
  entityIds : FileContent
  table : FileContent
  freshSeed : UInt64

def IdChoice.source (fresh : UInt64) : IdChoice → IdSource
  | .sequential start => .sequential start 0
  | .seeded seed => .random seed
  | .fresh => .random fresh

def importOutput (job : ImportJob) (i : ImportInputs) : Except Failure Output := do
  let catalog ← loadCatalog job.catalog i.catalog
  let period ← match PricePeriod.ofYearMonth job.year job.month with
    | .ok p => .ok p
    | .error e => stopWith e.message
  let date ← snapshotDate job
  let entityIds ← match job.entityIds? with
    | some path => loadEntityIds path i.entityIds
    | none => .ok []
  let context : Context := ⟨date, job.snapshotType, job.dataSource, job.keyPath?, entityIds⟩
  let table ← loadTable job i.table
  let request : ImportRequest := ⟨job.platform, job.name, period, context⟩
  match catalog.importTable request table (job.ids.source i.freshSeed) with
  | .ok out => .ok out
  | .error e => stopWith "Import failed" (importCauses e)

/-- The lines on the mappings of a catalog, and the number of mappings that fail their check. -/
def checkMappings : List Mapping → List String × Nat
  | [] => ([], 0)
  | m :: rest =>
    let (lines, failures) := checkMappings rest
    match m.check with
    | .ok () =>
      let warnings := m.unresolved.map fun u =>
        s!"      warning: {u.field} reads '{u.name}', which no rule produces"
      (s!"ok    {m.platform}/{m.name}" :: warnings ++ lines, failures)
    | .error e => (s!"error {m.platform}/{m.name}: {e.message}" :: lines, failures + 1)

def catalogReport (path : String) (found : FileContent) : Report :=
  match loadCatalog path found with
  | .error f => { failure? := some f }
  | .ok c =>
    let (lines, failures) := checkMappings c.mappings
    { output := String.join (lines.map (· ++ "\n"))
      failure? := if failures = 0 then none
        else some ⟨s!"{failures} of {c.size} configurations are invalid", []⟩ }

def checkJson (c : Expr.Check) : Json :=
  .object <|
    ("valid", .bool c.valid) ::
      (if c.variableNames.isEmpty then []
        else [("variables", .array (c.variableNames.map .string))]) ++
      (c.error?.map fun e => ("error", .string e.message)).toList

def expressionReport (text : String) : Report :=
  let c := Expr.check text
  { output := (checkJson c).pretty 0 ++ "\n"
    failure? := if c.valid then none else some ⟨"Invalid expression", []⟩ }

variable {m : Type → Type} [Monad m]

/-- Writes what an import yielded: the documents to a file or the output, then the rejected rows. -/
def deliver (host : Host m) (job : ImportJob) (out : Output) : m Report := do
  let text := out.toJson.pretty 0
  let report : Report ← match job.output? with
    | none => pure { output := text ++ "\n" }
    | some path =>
      if ← host.write path text.toUTF8 then pure {}
      else pure { failure? := some ⟨s!"Failed to create '{path}'", []⟩ }
  if report.failure?.isSome then return report
  match job.rejects? with
  | none => return { report with notes := out.summary.lines }
  | some path =>
    if ← host.write path (ByteArray.mk (Csv.write {} out.rejectTable).toArray) then
      return { report with notes := out.summary.lines }
    else return { report with
      failure? := some ⟨s!"Failed to write '{path}'", [TableError.file.message]⟩ }

def run (host : Host m) : Command → m Report
  | .checkExpression text => pure (expressionReport text)
  | .checkCatalog path => do return catalogReport path (← host.read path)
  | .importTable job => do
    let catalog ← host.read job.catalog
    let entityIds ← match job.entityIds? with
      | some path => host.read path
      | none => pure .missing
    let table ← host.read job.input
    let inputs : ImportInputs := ⟨catalog, entityIds, table, ← host.fresh⟩
    match importOutput job inputs with
    | .ok out => deliver host job out
    | .error f => return { failure? := some f }

/-- Commands work with the files of a tree, and with a seed in the place of random numbers. -/
def treeHost (seed : UInt64) : Host (StateM FileTree) where
  read path := do return (← get).read path
  write path content := do
    match (← get).write? path content with
    | some t =>
      set t
      return true
    | none => return false
  fresh := return seed

/-- What a command says about the files of a tree, and the files that it leaves behind. -/
def runIn (t : FileTree) (seed : UInt64) (c : Command) : Report × FileTree :=
  (run (treeHost seed) c).run t

def Failure.lines (f : Failure) : List String :=
  match f.causes with
  | [] => [s!"Error: {f.message}"]
  | [c] => [s!"Error: {f.message}", "", "Caused by:", "    " ++ c]
  | cs =>
    [s!"Error: {f.message}", "", "Caused by:"] ++ cs.zipIdx.map fun c => s!"    {c.2}: {c.1}"

end TableImport.Command
