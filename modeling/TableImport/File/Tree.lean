import TableImport.File.Content

/-! Files in a tree of directories, and where paths lead in it. -/
namespace TableImport

/-- A place in a tree, by the names that lead to it from the root. -/
abbrev Location := List String

/-- What stands at a place. -/
inductive FileItem where
  | directory
  | file (content : ByteArray)
  /-- A device that reads as an empty file and gathers what is written to it. -/
  | stream (written : ByteArray)

/-- Directories and files at their places, and the directory where relative paths begin. -/
structure FileTree where
  current : Location
  items : List (Location × FileItem)

namespace FileTree

/-- What stands at a place; the root is a directory of its own. -/
def item? (t : FileTree) (p : Location) : Option FileItem :=
  if p = [] then some .directory else t.items.lookup p

def isDirectory (t : FileTree) (p : Location) : Bool :=
  match t.item? p with
  | some .directory => true
  | _ => false

/-- The length in bytes that a name may have. -/
def maxNameSize : Nat := 255

/-- The length in bytes that a path may have. -/
def maxPathSize : Nat := 4095

/-- The next place on a path, which has to go on from a directory. An empty part and a single dot
stay there; two dots lead to the directory above, and from the root nowhere else. -/
def enter? (t : FileTree) (p : Location) (part : List Char) : Option Location :=
  let name := String.ofList part
  if !t.isDirectory p || maxNameSize < name.utf8ByteSize then none
  else if part = [] ∨ part = ['.'] then some p
  else if part = ['.', '.'] then some p.dropLast
  else some (p ++ [name])

/-- The place where a path leads, whether or not something stands there. -/
def locate? (t : FileTree) (path : String) : Option Location :=
  let parts := path.toList.splitOnP (· == '/')
  if path.isEmpty || maxPathSize < path.utf8ByteSize then none
  else parts.foldlM t.enter? (if parts.head? = some [] then [] else t.current)

def read (t : FileTree) (path : String) : FileContent :=
  match (t.locate? path).bind t.item? with
  | some .directory => .unreadable
  | some (.file content) => .bytes content
  | some (.stream _) => .bytes .empty
  | none => .missing

/-- The tree with what stands at a place, which replaces what stood there before. -/
def put (t : FileTree) (p : Location) (i : FileItem) : FileTree :=
  { t with items := (p, i) :: t.items.filter fun e => e.1 != p }

/-- The tree with a file written, where the path leads to a place that a file can have. -/
def write? (t : FileTree) (path : String) (content : ByteArray) : Option FileTree :=
  (t.locate? path).bind fun p =>
    match t.item? p with
    | some .directory => none
    | some (.stream written) => some (t.put p (.stream (written ++ content)))
    | some (.file _) | none => some (t.put p (.file content))

/-- What has been written to the device at a place. -/
def written (t : FileTree) (p : Location) : ByteArray :=
  match t.item? p with
  | some (.stream written) => written
  | _ => .empty

end FileTree
end TableImport
