import TableImport.Text.Blank

/-! Dotted paths. -/
namespace TableImport.Path

/-- The text before the first dot, and the texts between the dots after it. -/
def cut : List Char → List Char × List (List Char)
  | [] => ([], [])
  | c :: cs =>
    let (s, rest) := cut cs
    if c = '.' then ([], s :: rest) else (c :: s, rest)

def first (path : String) : String := String.ofList (cut path.toList).1

/-- The segments between dots; there is always at least one. -/
def segments (path : String) : List String :=
  first path :: (cut path.toList).2.map String.ofList

theorem segments_ne_nil (path : String) : segments path ≠ [] := by simp [segments]

def isBlank (path : String) : Bool := isBlankText path

def hasEmptySegment (path : String) : Bool := (segments path).any fun s => s.isEmpty

def hasBlankSegment (path : String) : Bool := (segments path).any fun s => isBlankText s

end TableImport.Path
