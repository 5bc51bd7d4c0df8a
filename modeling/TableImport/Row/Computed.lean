import TableImport.Config.Validate

/-! Computed fields on the documents of one row. -/
namespace TableImport

structure Documents where
  primary : Document
  secondary : Document

namespace Documents

def empty : Documents := ⟨.empty, .empty⟩

/-- The finite number that a name stands for: a price in major units, or the number at a path of
the secondary or the primary document. -/
def resolve (d : Documents) (name : String) : Option Float :=
  let x? := match afterStart? priceStart name with
    | some kind => (d.primary.findPrice? kind).map PriceRecord.majorUnits
    | none =>
      if (afterStart? metricsStart name).isSome then d.secondary.getNumber? name
      else d.primary.getNumber? name
  x?.filter Float.isFinite

/-- The numbers of the given names; other names have none. -/
def scope (d : Documents) (names : List String) : Scope :=
  fun name => if names.contains name then d.resolve name else none

end Documents

/-- The finite number of a value; the truth values count as 1 and 0. -/
def Value.finite? (v : Value) : Option Float := v.number?.filter Float.isFinite

/-- A number rounded to the decimal places of a formula, if it names them. -/
def applyPrecision (x : Float) : Option UInt32 → Float
  | some places => Binary64.roundTo x places.toInt32
  | none => x

/-- Two operands and a factor. The left operand must be there; a missing right one counts as 0,
by which nothing is divided. -/
def computeOperands (d : Documents) (op : BinaryOp) (left : String) (right? : Option String)
    (multiplier? : Option Float) : Option Float := do
  let x ← d.resolve left
  let y := ((right?.bind d.resolve).getD 0)
  let raw ← match op with
    | .div => if y == 0 then none else some (x / y)
    | .mul => some (x * y)
    | .add => some (x + y)
    | .sub => some (x - y)
  (some (raw * multiplier?.getD 1)).filter Float.isFinite

/-- The number of a computed field on the documents, if it has one. -/
def ComputedField.compute (f : ComputedField) (d : Documents) : Option Float :=
  let x? := match f.formula with
    | .expression text _ => (Expr.evalText (d.scope (Expr.mentioned text)) text).finite?
    | .operands op left right? multiplier? _ => computeOperands d op left right? multiplier?
  x?.map fun x => applyPrecision x f.formula.precision?

inductive Program where
  | expression (e : Expr) (names : List String)
  | malformed
  | operands

structure CompiledField where
  field : ComputedField
  program : Program

namespace CompiledField

def compile (f : ComputedField) : CompiledField :=
  ⟨f, match f.formula with
    | .expression text _ =>
      match Expr.parse text with
      | .ok e => .expression e (Expr.mentioned text)
      | .error _ => .malformed
    | .operands .. => .operands⟩

def evaluate (c : CompiledField) (d : Documents) : Option Float :=
  match c.program with
  | .expression e names =>
    ((Expr.eval (d.scope names) e).toOption.bind Value.finite?).map fun x =>
      applyPrecision x c.field.formula.precision?
  | .malformed => none
  | .operands => c.field.compute d

end CompiledField
end TableImport
