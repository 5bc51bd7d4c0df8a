import Mathlib.Data.List.Basic
import TableImport.Expr.Parser

/-! The grammar of expressions, and the parts of the parser that its rules correspond to: the room
that open frames leave for an operand, and the functions that calls name. -/
namespace TableImport
namespace Expr

/-- The kinds of phrases, from the loosest to the tightest. -/
inductive Category where
  | expression | sum | product | unary | primary
  deriving DecidableEq, Repr

/-- How tightly a phrase holds together, on the scale of `Expr.precedence`. -/
def Category.level : Category → Nat
  | expression => 1
  | sum => 2
  | product => 3
  | unary => 4
  | primary => 5

theorem Category.one_le_level (c : Category) : 1 ≤ c.level := by cases c <;> decide

/-- The tokens of a phrase and its tree. Repetitions associate to the left, parentheses leave no
node, and a call is stored under the name of a function that takes so many arguments. -/
inductive Derives : Category → List TokenKind → Expr → Prop where
  | sumAlone {ts e} (h : Derives .sum ts e) : Derives .expression ts e
  | comparison {ls rs l r} (op : CompareOp) (hl : Derives .sum ls l) (hr : Derives .sum rs r) :
      Derives .expression (ls ++ .comparison op :: rs) (.compare op l r)
  | productAlone {ts e} (h : Derives .product ts e) : Derives .sum ts e
  | addition {ls rs l r} {op : BinaryOp} (hop : op = .add ∨ op = .sub) (hl : Derives .sum ls l)
      (hr : Derives .product rs r) : Derives .sum (ls ++ .operator op :: rs) (.binary op l r)
  | unaryAlone {ts e} (h : Derives .unary ts e) : Derives .product ts e
  | multiplication {ls rs l r} {op : BinaryOp} (hop : op = .mul ∨ op = .div)
      (hl : Derives .product ls l) (hr : Derives .unary rs r) :
      Derives .product (ls ++ .operator op :: rs) (.binary op l r)
  | primaryAlone {ts e} (h : Derives .primary ts e) : Derives .unary ts e
  | negation {ts e} (h : Derives .unary ts e) : Derives .unary (.operator .sub :: ts) (.negate e)
  | number (x : Float) : Derives .primary [.number x] (.number x)
  | identifier (path : String) : Derives .primary [.identifier path] (.var path)
  | call {name : String} {f : Function} (args : List (List TokenKind × Expr))
      (hname : f.name = name.map Char.toLower) (hcount : f.accepts args.length)
      (hargs : ∀ a ∈ args, Derives .expression a.1 a.2) :
      Derives .primary
        (.function name :: .openParen ::
          ([.comma].intercalate (args.map Prod.fst) ++ [.closeParen]))
        (.call f.name (args.map Prod.snd))
  | group {ts e} (h : Derives .expression ts e) :
      Derives .primary (.openParen :: (ts ++ [.closeParen])) e

attribute [grind =] settle parseFrom

def TokenKind.isEnd : TokenKind → Bool
  | endOfInput => true
  | _ => false

/-- Operators, comparisons, parentheses and commas. -/
def TokenKind.isSign : TokenKind → Bool
  | operator _ | comparison _ | openParen | closeParen | comma => true
  | _ => false

/-- The kinds of the tokens before the first end of the input; of all tokens if there is none. -/
def beforeEnd (tokens : List Token) : List TokenKind :=
  (tokens.map Token.kind).takeWhile fun k => !k.isEnd

end Expr

namespace BinaryOp
open TableImport.Expr (Category)

/-- The phrases that an operator makes and takes on its left. -/
def category : BinaryOp → Category
  | add | sub => .sum
  | mul | div => .product

/-- The phrases that an operator takes on its right. -/
def operand : BinaryOp → Category
  | add | sub => .product
  | mul | div => .unary

@[simp] theorem level_category (op : BinaryOp) : op.category.level = op.precedence := by
  cases op <;> rfl

@[simp] theorem level_operand (op : BinaryOp) : op.operand.level = op.precedence + 1 := by
  cases op <;> rfl

theorem precedence_le_three (op : BinaryOp) : op.precedence ≤ 3 := by cases op <;> decide

end BinaryOp

namespace Expr
namespace Derives

/-- A phrase stands wherever a looser one can. -/
theorem loosen {c d : Category} {ts : List TokenKind} {e : Expr} (h : Derives d ts e)
    (hcd : c.level ≤ d.level) : Derives c ts e := by
  have toUnary : 4 ≤ d.level → Derives .unary ts e := by
    cases d with
    | primary => exact fun _ => .primaryAlone h
    | unary => exact fun _ => h
    | _ => simp [Category.level]
  have toProduct : 3 ≤ d.level → Derives .product ts e := by
    cases d with
    | primary | unary => exact fun _ => .unaryAlone (toUnary (by decide))
    | product => exact fun _ => h
    | _ => simp [Category.level]
  have toSum : 2 ≤ d.level → Derives .sum ts e := by
    cases d with
    | primary | unary | product => exact fun _ => .productAlone (toProduct (by decide))
    | sum => exact fun _ => h
    | expression => simp [Category.level]
  cases c with
  | expression =>
    cases d with
    | expression => exact h
    | _ => exact .sumAlone (toSum (by decide))
  | sum => exact toSum hcd
  | product => exact toProduct hcd
  | unary => exact toUnary hcd
  | primary =>
    cases d with
    | primary => exact h
    | _ => simp [Category.level] at hcd

theorem binary {op : BinaryOp} {ls rs : List TokenKind} {l r : Expr}
    (hl : Derives op.category ls l) (hr : Derives op.operand rs r) :
    Derives op.category (ls ++ .operator op :: rs) (.binary op l r) := by
  cases op with
  | add => exact .addition (.inl rfl) hl hr
  | sub => exact .addition (.inr rfl) hl hr
  | mul => exact .multiplication (.inl rfl) hl hr
  | div => exact .multiplication (.inr rfl) hl hr

section
variable {P : List TokenKind → Prop} (nil : P [])
  (sign : ∀ ls k rs, k.isSign = true → P ls → P rs → P (ls ++ k :: rs))
include nil sign

theorem intercalate_induction {tss : List (List TokenKind)} (h : ∀ ts ∈ tss, P ts) :
    P ([TokenKind.comma].intercalate tss) := by
  induction tss with
  | nil => exact nil
  | cons ts tss ih =>
    obtain ⟨hhead, htail⟩ := List.forall_mem_cons.mp h
    cases tss with
    | nil => simpa using hhead
    | cons us tss => exact sign ts .comma _ rfl hhead (ih htail)

/-- What holds of the single words of phrases, and of two lists of tokens with a sign between
them where it holds of each, holds of all phrases. -/
theorem kinds_induction (number : ∀ x, P [.number x]) (identifier : ∀ path, P [.identifier path])
    (function : ∀ name (f : Function), f.name = name.map Char.toLower →
      ∀ ks, P ks → P (.function name :: .openParen :: ks))
    {c : Category} {ts : List TokenKind} {e : Expr} (h : Derives c ts e) : P ts := by
  induction h with
  | sumAlone _ ih | productAlone _ ih | unaryAlone _ ih | primaryAlone _ ih => exact ih
  | comparison _ _ _ ihl ihr | addition _ _ _ ihl ihr | multiplication _ _ _ ihl ihr =>
    exact sign _ _ _ rfl ihl ihr
  | negation _ ih => exact sign [] _ _ rfl nil ih
  | number x => exact number x
  | identifier path => exact identifier path
  | group _ ih => exact sign [] _ _ rfl nil (sign _ _ [] rfl ih nil)
  | @call name f args hname _ _ ih =>
    have hargs : P ([.comma].intercalate (args.map Prod.fst)) :=
      intercalate_induction nil sign (by simpa using ih)
    exact function name f hname _ (sign _ _ [] rfl hargs nil)

end

/-- The end of the input is no part of a phrase. -/
theorem isEnd_eq_false {c : Category} {ts : List TokenKind} {e : Expr} (h : Derives c ts e) :
    ∀ k ∈ ts, k.isEnd = false := by
  refine h.kinds_induction (P := fun ks => ∀ k ∈ ks, k.isEnd = false) (by simp) ?_ ?_ ?_ ?_
  · intro ls k rs hk hl hr
    have hsign : k.isEnd = false := by cases k <;> first | rfl | cases hk
    simpa [or_imp, forall_and, hsign] using ⟨hl, hr⟩
  · simp [TokenKind.isEnd]
  · simp [TokenKind.isEnd]
  · intro name f _ ks hks
    simpa [TokenKind.isEnd] using hks

end Derives

/-- The least level of an operand that the topmost open frame takes. -/
def room : List Frame → Nat
  | .negate :: _ => 4
  | .binary _ op :: _ => op.precedence + 1
  | .compare _ _ :: _ => 2
  | _ => 1

theorem room_le_four (stack : List Frame) : room stack ≤ 4 := by
  match stack with
  | [] | .negate :: _ | .compare _ _ :: _ | .group :: _ | .call _ _ :: _ => simp [room]
  | .binary _ op :: _ => exact Nat.succ_le_succ op.precedence_le_three

/-- A stack with room for an operand of the level has nothing to close at that level. -/
theorem settle_of_room {level : Nat} {stack : List Frame} (h : room stack ≤ level)
    (hlevel : level ≤ 3) (e : Expr) : settle level e stack = (e, stack) := by
  match stack with
  | [] | .group :: _ | .call _ _ :: _ => rfl
  | .negate :: _ => exact absurd (Nat.le_trans h hlevel) (by simp [room])
  | .binary l op :: _ =>
    have hop : ¬level ≤ op.precedence := Nat.not_le.2 h
    simp [settle, hop]
  | .compare l op :: _ =>
    have hop : ¬level ≤ 1 := Nat.not_le.2 h
    simp [settle, hop]

theorem Function.name_injective {f g : Function} (h : f.name = g.name) : f = g := by
  cases f <;> cases g <;> first | rfl | simp [Function.name] at h

theorem name_of_lookup? {s : String} {f : Function} (h : Function.lookup? s = some f) :
    f.name = s.map Char.toLower := by
  unfold Function.lookup? at h
  simpa using List.find?_some h

theorem lookup?_eq_some_iff {s : String} {f : Function} :
    Function.lookup? s = some f ↔ f.name = s.map Char.toLower := by
  refine ⟨name_of_lookup?, fun h => ?_⟩
  have hmem : f ∈ Function.all := by cases f <;> decide
  have hfound : (Function.lookup? s).isSome := List.find?_isSome.2 ⟨f, hmem, by simp [h]⟩
  obtain ⟨g, hg⟩ := Option.isSome_iff_exists.1 hfound
  rw [hg, Function.name_injective ((name_of_lookup? hg).trans h.symm)]

theorem map_toLower_name (f : Function) : f.name.map Char.toLower = f.name := by
  rw [← String.toList_inj, String.toList_map]
  cases f <;> decide

theorem lookup?_name (f : Function) : Function.lookup? f.name = some f :=
  lookup?_eq_some_iff.mpr (map_toLower_name f).symm

theorem closeCall_eq_ok_iff {f : Function} {args : List Expr} {e : Expr} :
    closeCall f args = .ok e ↔ f.accepts args.length ∧ e = .call f.name args := by
  unfold closeCall
  split
  · next h => simp [h, eq_comm]
  · next h => simp [h]

end Expr
end TableImport
