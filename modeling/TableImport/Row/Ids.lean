import TableImport.Calendar.Date

/-! Sources of snapshot identifiers. -/
namespace TableImport

/-- Where identifiers come from: a counter behind a fixed text, or random numbers. -/
inductive IdSource where
  | sequential (start : String) (issued : Nat)
  | random (state : UInt64)
  deriving DecidableEq, Repr

namespace IdSource

/-- Spreads a counter's value over all 64 bits; each step can be undone, so different values stay
different. -/
def scramble (x : UInt64) : UInt64 :=
  let x := (x ^^^ (x >>> 30)) * 0xbf58476d1ce4e5b9
  let x := (x ^^^ (x >>> 27)) * 0x94d049bb133111eb
  x ^^^ (x >>> 31)

def hex (x : UInt64) : String :=
  let ds := Nat.toDigits 16 x.toNat
  String.ofList (List.replicate (16 - ds.length) '0' ++ ds)

/-- The next identifier, and the source after it. A counter starts at 1 and has six digits at
least. -/
def next : IdSource → String × IdSource
  | sequential start issued =>
    (start ++ String.ofList (Date.padded 6 (issued + 1)), sequential start (issued + 1))
  | random state =>
    let state := state + 0x9e3779b97f4a7c15
    (hex (scramble state), random state)

def take : Nat → IdSource → List String
  | 0, _ => []
  | n + 1, s => s.next.1 :: take n s.next.2

end IdSource
end TableImport
