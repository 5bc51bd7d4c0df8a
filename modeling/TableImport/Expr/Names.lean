import TableImport.Expr.Lexer
import TableImport.Text.Word

/-! The names of values in a text, found without parsing it. -/
namespace TableImport.Expr

/-- The longest names in a text that do not stand right after a word character. `name` holds the
characters of the name being read, the last first; `afterWord` tells whether the character before
is one of a word. -/
def lexicalNames (name : List Char) (afterWord : Bool) : List Char → List (List Char)
  | [] => if name = [] then [] else [name.reverse]
  | c :: cs =>
    if name ≠ [] ∧ isNameChar c then lexicalNames (c :: name) true cs
    else
      let rest :=
        if isNameStart c ∧ ¬afterWord then lexicalNames [c] true cs
        else lexicalNames [] (isWordChar c) cs
      if name = [] then rest else name.reverse :: rest

def trimDots (cs : List Char) : List Char := (cs.reverse.dropWhile (· == '.')).reverse

/-- The names of values that a text mentions, in the order of their first occurrence: without
dots at their ends, and without the names of functions. -/
def mentioned (text : String) : List String :=
  ((lexicalNames [] false text.toList).map (String.ofList ∘ trimDots)).filter
    (fun s => !s.isEmpty && !Function.isName s) |>.eraseDups

end TableImport.Expr
