import GrammarShapes.Text.Quoted

set_option autoImplicit false

/-! # Shapes

A shape is what can be seen of a node without looking at its children: the name of a visible rule, the text
of a literal token, or that it is some token a pattern matches.
-/

namespace GrammarShapes

inductive Shape where
  | symbol (name : String)
  | literal (value : String)
  | pattern
deriving DecidableEq

namespace Shape

def isNamed : Shape → Bool
  | .symbol _ => true
  | _ => false

/-- The shape as it is shown: a literal stands in quotes. -/
def display : Shape → String
  | .symbol name => name
  | .literal value => Text.quoted value
  | .pattern => "Pattern"

/-- Symbols come before literals and the pattern last; equals are ordered by their text. -/
def order : Shape → Shape → Ordering
  | .symbol a, .symbol b => compare a b
  | .symbol _, _ => .lt
  | .literal _, .symbol _ => .gt
  | .literal a, .literal b => compare a b
  | .literal _, .pattern => .lt
  | .pattern, .pattern => .eq
  | .pattern, _ => .gt

def sort (shapes : List Shape) : List Shape :=
  shapes.mergeSort fun a b => (order a b).isLE

end Shape

end GrammarShapes
