/-! Finite maps from texts, as lists of pairs in ascending order of keys. -/
namespace TableImport

abbrev Assoc (α : Type) := List (String × α)

namespace Assoc
variable {α : Type}

/-- The value under the first pair with the key. -/
def get? (key : String) : Assoc α → Option α
  | [] => none
  | (k, v) :: rest => if k = key then some v else get? key rest

/-- Replaces the value under the key, or adds a pair before the first larger key. -/
def insert (key : String) (value : α) : Assoc α → Assoc α
  | [] => [(key, value)]
  | (k, v) :: rest =>
    if k = key then (key, value) :: rest
    else if key < k then (key, value) :: (k, v) :: rest
    else (k, v) :: insert key value rest

def erase (key : String) : Assoc α → Assoc α
  | [] => []
  | (k, v) :: rest => if k = key then rest else (k, v) :: erase key rest

def ofPairs (pairs : List (String × α)) : Assoc α :=
  pairs.foldl (fun m p => insert p.1 p.2 m) []

@[simp] theorem get?_nil (key : String) : get? key ([] : Assoc α) = none := rfl

@[simp] theorem get?_insert_self (key : String) (value : α) (m : Assoc α) :
    get? key (insert key value m) = some value := by
  induction m with
  | nil => simp [insert, get?]
  | cons p rest ih => grind [insert, get?]

theorem get?_insert_of_ne {key other : String} (h : other ≠ key) (value : α) (m : Assoc α) :
    get? other (insert key value m) = get? other m := by
  induction m with
  | nil => simp [insert, get?, h.symm]
  | cons p rest ih => grind [insert, get?]

theorem insert_ne_nil (key : String) (value : α) (m : Assoc α) : insert key value m ≠ [] := by
  cases m with
  | nil => simp [insert]
  | cons p rest => grind [insert]

end Assoc
end TableImport
