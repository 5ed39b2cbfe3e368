set_option autoImplicit false

/-! # Digits

The number that digits denote, the most significant digit first. The letters from `a` on, in either case,
are the digits from ten on.
-/

namespace GrammarShapes.Text

def isHexDigit (c : Char) : Bool :=
  c.isDigit || ('a' ≤ c && c ≤ 'f') || ('A' ≤ c && c ≤ 'F')

def digitValue (c : Char) : Nat :=
  if c.isDigit then c.toNat - '0'.toNat else c.toLower.toNat - 'a'.toNat + 10

def digitsValue (base : Nat) (ds : List Char) : Nat :=
  ds.foldl (fun n d => base * n + digitValue d) 0

end GrammarShapes.Text
