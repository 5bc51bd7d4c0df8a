import TableImport.Command.Option

/-! Reading the arguments of the command line. -/
namespace TableImport.Command

/-- Why the arguments do not lead to a command: they are wrong, or ask for the page of a command or
for the version. -/
inductive Stop where
  | usage
  | help (command : String)
  | version
  deriving DecidableEq, Repr

/-- The options with their values, the last first, and the other arguments in order. -/
structure Arguments where
  options : List (String × String) := []
  others : List String := []

/-- A value stored under an option; each is given at most once. -/
def Arguments.set (a : Arguments) (o : OptionSpec) (value : String) : Except Stop Arguments :=
  if (a.options.lookup o.name).isSome || !o.accepts value then .error .usage
  else .ok { a with options := (o.name, value) :: a.options }

/-- What a letter or a long name stands for. -/
inductive Meaning where
  | flag (f : Flag)
  | valued (o : OptionSpec)

namespace CommandSpec

def ofLetter? (s : CommandSpec) (c : Char) : Option Meaning :=
  ((s.flags.find? fun f => f.letter == c).map .flag).or
    ((s.options.find? fun o => o.letter? == some c).map .valued)

def ofLongName? (s : CommandSpec) (name : String) : Option Meaning :=
  ((s.flags.find? fun f => f.name == name).map .flag).or
    ((s.options.find? fun o => o.name == name).map .valued)

/-- What a flag does; only the one for more messages lets the reading go on. -/
def raise (s : CommandSpec) : Flag → Except Stop Unit
  | .verbose => .ok ()
  | .help => .error (.help s.name)
  | .version => .error .version

end CommandSpec

/-- An option whose value is still to come, or a value that came with it. -/
inductive Pending where
  | nothing
  | value (o : OptionSpec) (attached? : Option String)

/-- Letters behind one hyphen. The first with a value takes the rest, an equals sign apart. -/
def readCluster (s : CommandSpec) : List Char → Except Stop Pending
  | [] => .ok .nothing
  | c :: cs =>
    match s.ofLetter? c with
    | none => .error .usage
    | some (.flag f) => do
      s.raise f
      readCluster s cs
    | some (.valued o) =>
      .ok (.value o (match cs with
        | [] => none
        | '=' :: r => some (String.ofList r)
        | r => some (String.ofList r)))

/-- A long name behind two hyphens, with or without a value behind an equals sign. -/
def readLongName (s : CommandSpec) (cs : List Char) : Except Stop Pending :=
  let name := String.ofList (cs.takeWhile (· != '='))
  let attached? := match cs.dropWhile (· != '=') with
    | '=' :: r => some (String.ofList r)
    | _ => none
  match s.ofLongName? name, attached? with
  | none, _ | some (.flag _), some _ => .error .usage
  | some (.flag f), none => do
    s.raise f
    .ok .nothing
  | some (.valued o), _ => .ok (.value o attached?)

/-- Whether an argument starts options; a single hyphen does not. -/
def isOption (arg : String) : Bool :=
  match arg.toList with
  | '-' :: _ :: _ => true
  | _ => false

def Arguments.add (s : CommandSpec) (a : Arguments) (arg : String) : Except Stop Arguments :=
  if s.argument?.isSome && a.others.isEmpty then .ok { a with others := [arg] } else .error .usage

/-- Reads the arguments of a command; after two hyphens nothing is an option. -/
def readArguments (s : CommandSpec) (a : Arguments) : List String → Except Stop Arguments
  | [] => .ok a
  | arg :: rest =>
    match arg.toList with
    | ['-', '-'] => rest.foldlM (Arguments.add s) a
    | '-' :: c :: cs => do
      let pending ← if c = '-' then readLongName s cs else readCluster s (c :: cs)
      match pending with
      | .nothing => readArguments s a rest
      | .value o (some value) => readArguments s (← a.set o value) rest
      | .value o none =>
        match rest with
        | value :: rest =>
          if isOption value then .error .usage
          else readArguments s (← a.set o value) rest
        | [] => .error .usage
    | _ => do readArguments s (← a.add s arg) rest

inductive IdChoice where
  | sequential (start : String)
  | seeded (seed : UInt64)
  | fresh

structure ImportJob where
  catalog : String
  platform : String
  name : String
  input : String
  year : Int32
  month : UInt32
  snapshotDate? : Option Date
  snapshotType : String
  dataSource : String
  keyPath? : Option String
  entityIds? : Option String
  ids : IdChoice
  delimiter : Char
  output? : Option String
  rejects? : Option String

end TableImport.Command

namespace TableImport

inductive Command where
  | importTable (job : Command.ImportJob)
  | checkExpression (text : String)
  | checkCatalog (path : String)

namespace Command

/-- The job of the given options; the two sources of repeatable identifiers exclude each other. -/
def ImportJob.ofArguments? (a : Arguments) : Option ImportJob := do
  let get name := a.options.lookup name
  let ids ← match get "sequential-ids", (get "seed").bind readSeed? with
    | some _, some _ => none
    | some start, none => some (IdChoice.sequential start)
    | none, some seed => some (.seeded seed)
    | none, none => some .fresh
  some {
    catalog := ← get "config"
    platform := ← get "platform"
    name := ← get "name"
    input := ← get "input"
    year := ← (get "year").bind readYear?
    month := ← (get "month").bind readMonth?
    snapshotDate? := (get "snapshot-date").bind Date.read?
    snapshotType := (get "snapshot-type").getD "monthly"
    dataSource := (get "data-source").getD "spreadsheet"
    keyPath? := get "key-path"
    entityIds? := get "entity-ids"
    ids := ids
    delimiter := ((get "delimiter").bind readChar?).getD ','
    output? := get "output"
    rejects? := get "rejects" }

def orUsage {α : Type} (a? : Option α) : Except Stop α :=
  match a? with
  | some a => .ok a
  | none => .error .usage

/-- The page that is asked for by the word for help and the names after it, itself included. -/
def readHelp : List String → Stop
  | [] => .help general.name
  | [name] => if (CommandSpec.ofName? name).isSome then .help name else .usage
  | _ => .usage

/-- The command that a word names, with its arguments. -/
def readCommand (word : String) (args : List String) : Except Stop Command :=
  match word with
  | "import" => do
    let a ← readArguments importSpec {} args
    .ok (.importTable (← orUsage (ImportJob.ofArguments? a)))
  | "check-expr" => do
    let a ← readArguments checkExpressionSpec {} args
    .ok (.checkExpression (← orUsage a.others.head?))
  | "check-config" => do
    let a ← readArguments checkCatalogSpec {} args
    .ok (.checkCatalog (← orUsage (a.options.lookup "config")))
  | "help" => .error (readHelp args)
  | _ => .error .usage

/-- The command of the whole command line. The options before its word are general ones. -/
def read : List String → Except Stop Command
  | [] => .error .usage
  | arg :: rest =>
    if arg = "--" then .error .usage
    else if isOption arg then do
      let _ ← readArguments general {} [arg]
      read rest
    else readCommand arg rest

end Command
end TableImport
