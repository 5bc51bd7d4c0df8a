import TableImport.Command.Option

/-! The pages that tell how the program is used. -/
namespace TableImport.Command

def programName : String := "sheetmap"

def versionText : String := programName ++ " 0.1.0\n"

/-- A label on the left of a page and what stands beside it. -/
structure Entry where
  label : String
  about : String

def pad (width : Nat) (s : String) : String :=
  s ++ String.ofList (List.replicate (width - s.length) ' ')

/-- The name of a value in angle brackets. -/
def placeholder (name : String) : String :=
  "<" ++ String.ofList (name.toList.map fun c => if c = '-' then '_' else c.toUpper) ++ ">"

/-- An argument in angle brackets, or in square ones where there may be any number of it. -/
def ArgumentSpec.label (a : ArgumentSpec) : String :=
  if a.repeated then "[" ++ a.name ++ "]..." else placeholder a.name

def OptionSpec.usage (o : OptionSpec) : String := "--" ++ o.name ++ " " ++ placeholder o.name

def OptionSpec.entry (o : OptionSpec) : Entry :=
  let letter := match o.letter? with
    | some c => "-" ++ c.toString ++ ", "
    | none => "    "
  ⟨letter ++ o.usage, match o.default? with
    | some d => o.about ++ " [default: " ++ d ++ "]"
    | none => o.about⟩

def Flag.entry (f : Flag) : Entry :=
  let label := "-" ++ f.letter.toString ++ ", --" ++ f.name
  match f with
  | verbose => ⟨label ++ "...", "Increase log verbosity (-v debug, -vv trace)"⟩
  | help => ⟨label, "Print help"⟩
  | version => ⟨label, "Print version"⟩

/-- Entries beside their labels in two columns, or below them where a long label leaves too little
of a line's hundred characters for what it says. -/
def column (entries : List Entry) : List String :=
  let width := (entries.map fun e => e.label.length).foldl max 0
  let isLong (e : Entry) : Bool := 32 < width && 92 - width < e.about.length
  if entries.any isLong then
    entries.flatMap fun e => ["  " ++ e.label, "          " ++ e.about]
  else entries.map fun e => "  " ++ pad (width + 2) e.label ++ e.about

def titled (title : String) (entries : List Entry) : List String :=
  if entries.isEmpty then [] else "" :: (title ++ ":") :: column entries

namespace CommandSpec

/-- The options of a command: the first, the flag for more messages, the others, the last flags. -/
def entries (c : CommandSpec) : List Entry :=
  c.options.take 1 |>.map OptionSpec.entry
    |>.append ((c.flags.take 1).map Flag.entry)
    |>.append ((c.options.drop 1).map OptionSpec.entry)
    |>.append ((c.flags.drop 1).map Flag.entry)

def usage (c : CommandSpec) : String :=
  let words := if c.name.isEmpty then [programName, "[OPTIONS]", "<COMMAND>"]
    else [programName, c.name] ++ (if c.flags.isEmpty then [] else ["[OPTIONS]"]) ++
      (c.options.filter OptionSpec.required).map OptionSpec.usage ++
      (c.argument?.map ArgumentSpec.label).toList
  "Usage: " ++ " ".intercalate words

def subcommands (c : CommandSpec) : List Entry :=
  if c.name.isEmpty then commands.map fun d => ⟨d.name, d.about⟩ else []

def page (c : CommandSpec) : String :=
  let argument := c.argument?.map fun a => Entry.mk a.label a.about
  String.join <| List.map (· ++ "\n") <|
    [c.about, "", c.usage] ++ titled "Commands" c.subcommands ++
      titled "Arguments" argument.toList ++ titled "Options" c.entries

end CommandSpec

/-- The page of the command with a name, or of the program. -/
def helpText (name : String) : String := ((CommandSpec.ofName? name).getD general).page

end TableImport.Command
