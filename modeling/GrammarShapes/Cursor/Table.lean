import GrammarShapes.Cursor.Basic
import GrammarShapes.Tree.Basic

set_option autoImplicit false

/-! # Cursors given by a table

A table lists the states of a cursor: the node that each one shows and what each move reports and where it
leads. Nothing ties a report to the move, so that a table can describe a cursor that breaks its contract.
-/

namespace GrammarShapes

namespace CursorTable

/-- What a move reports and the number of the state that it leads to; an absent move fails and stays. -/
abbrev Transition :=
  Option (Bool × Nat)

structure State where
  node : Node
  firstChild : Transition := none
  nextSibling : Transition := none
  parent : Transition := none

namespace State

def transition (s : State) : Movement → Transition
  | .firstChild => s.firstChild
  | .nextSibling => s.nextSibling
  | .parent => s.parent

end State

def unknown : Node :=
  ⟨0, "", {}⟩

def cursor (table : Array State) : Cursor Nat Node where
  node i := (table[i]?.map State.node).getD unknown
  move m i := (table[i]?.bind (State.transition · m)).getD (false, i)

/-- The number of attempts for which a walk of the table's cursor is followed. -/
def walkBound (table : Array State) : Nat :=
  table.size * table.size + 1

end CursorTable

end GrammarShapes
