set_option autoImplicit false

/-! # Searching a row of numbers

A number is sought in an ascending row by halving, again and again, the part of the row where it may stand.
-/

namespace GrammarShapes

/-- Where a number stands in a row, or the place at which it would have to be inserted. -/
inductive Sought where
  | found (place : Nat)
  | missing (place : Nat)
deriving DecidableEq

/-- The place that is left of the `size` places from `base` on. The half behind the middle is kept unless its
first number is too great. -/
def narrow (row : Array Nat) (x base size : Nat) (hSize : 0 < size) (hFits : base + size ≤ row.size) :
    Fin row.size :=
  if hOne : size = 1 then ⟨base, by omega⟩
  else if x < row[base + size / 2] then narrow row x base (size - size / 2) (by omega) (by omega)
  else narrow row x (base + size / 2) (size - size / 2) (by omega) (by omega)
termination_by size

def seek (row : Array Nat) (x : Nat) : Sought :=
  if hSize : 0 < row.size then
    let place := narrow row x 0 row.size hSize (by omega)
    if row[place] = x then .found place
    else if row[place] < x then .missing (place + 1)
    else .missing place
  else .missing 0

end GrammarShapes
