import GrammarShapes.Source.Range

set_option autoImplicit false

/-! # Cursors

A cursor shows one node of a tree and moves to the first child, the next sibling or the parent. Every move
says whether it succeeded. The contract is that a failed move stays on its node and that a successful one
leaves it; nothing here assumes that a cursor keeps the contract.
-/

namespace GrammarShapes

inductive Movement where
  | firstChild
  | nextSibling
  | parent
deriving DecidableEq

def Movement.text : Movement → String
  | .firstChild => "goto_first_child"
  | .nextSibling => "goto_next_sibling"
  | .parent => "goto_parent"

class SyntaxNode (ν : Type) where
  kind : ν → String
  range : ν → Range
  /-- Whether two nodes are one and the same. -/
  same : ν → ν → Bool

/-- A cursor with states `σ` over nodes `ν`. A move gives whether it succeeded and the state after it. -/
structure Cursor (σ ν : Type) where
  node : σ → ν
  move : Movement → σ → Bool × σ

inductive Violation where
  | movedOnFailure
  | stayedOnSuccess
deriving DecidableEq

def Violation.text : Violation → String
  | .movedOnFailure => "reported failure but moved"
  | .stayedOnSuccess => "reported success but did not move"

/-- A move that broke the contract, with the kind and the range of the node before it. -/
structure ContractViolation where
  movement : Movement
  violation : Violation
  kind : String
  range : Range
deriving DecidableEq

def ContractViolation.message (v : ContractViolation) : String :=
  "cursor contract violated: " ++ v.movement.text ++ " " ++ v.violation.text ++ " at `" ++ v.kind ++
    "` (" ++ v.range.display ++ ")"

namespace Cursor

variable {σ ν : Type}

/-- A move that is taken at its word. -/
def trust (c : Cursor σ ν) (m : Movement) (s : σ) : Except Empty Bool × σ :=
  ((.ok (c.move m s).1), (c.move m s).2)

/-- How a move from one node to another breaks the contract, if it does. -/
def violation? [SyntaxNode ν] (succeeded : Bool) (before after : ν) : Option Violation :=
  match succeeded, SyntaxNode.same after before with
  | false, false => some .movedOnFailure
  | true, true => some .stayedOnSuccess
  | _, _ => none

/-- A move that is held to the contract. -/
def verify [SyntaxNode ν] (c : Cursor σ ν) (m : Movement) (s : σ) :
    Except ContractViolation Bool × σ :=
  let before := c.node s
  let (succeeded, after) := c.move m s
  match violation? succeeded before (c.node after) with
  | some v => (.error ⟨m, v, SyntaxNode.kind before, SyntaxNode.range before⟩, after)
  | none => (.ok succeeded, after)

end Cursor

end GrammarShapes
