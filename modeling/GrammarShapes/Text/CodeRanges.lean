set_option autoImplicit false

/-! # Sets of characters as lists of code point ranges

A set of characters that a standard lists by ranges is kept as those ranges, ends included.
-/

namespace GrammarShapes.Text

/-- The characters whose code point lies in one of the ranges, both ends included. -/
def covers (ranges : List (Nat × Nat)) (c : Char) : Bool :=
  ranges.any fun r => r.1 ≤ c.toNat && c.toNat ≤ r.2

end GrammarShapes.Text
