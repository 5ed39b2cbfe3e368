import GrammarShapes.Cursor.Walk
import GrammarShapes.Log.Event

set_option autoImplicit false

/-! # Visiting the nodes of a walk

A visitor is called on each node of a walk in turn; it has a state of its own and may end the walk with a
value. A cursor that breaks its contract can lead a walk around without end, so visiting takes the number
of nodes to ask for at most, and an outcome of its own says that this number did not suffice.
-/

namespace GrammarShapes

/-- What came of visiting: all nodes were visited, the visitor ended it, or there was more to ask for. -/
inductive Outcome (β : Type) where
  | complete
  | ended (value : β)
  | unfinished
deriving DecidableEq

/-- How visiting went: its outcome, the visitor's last state, the cursor's last state and the records. -/
structure Visit (β τ σ : Type) where
  outcome : Outcome β
  visitor : τ
  cursor : σ
  events : List Event := []

namespace Walk

variable {α β τ σ ν : Type}

/-- Calls a visitor on each item of a walk, which is asked for an item at most `bound` times. -/
def visit (next : Walk σ → Option α × Walk σ) (visitor : α → τ → Option β × τ) :
    Nat → Walk σ → τ → Visit β τ σ
  | 0, w, t => ⟨.unfinished, t, w.cursor, []⟩
  | bound + 1, w, t =>
      match next w with
      | (none, w) => ⟨.complete, t, w.cursor, []⟩
      | (some a, w) =>
          match visitor a t with
          | (some b, t) => ⟨.ended b, t, w.cursor, []⟩
          | (none, t) => visit next visitor bound w t

end Walk

namespace Cursor

variable {β τ σ ν : Type}

def walk (c : Cursor σ ν) (visitor : ν → τ → Option β × τ) (bound : Nat) (s : σ) (t : τ) :
    Visit β τ σ :=
  let v := Walk.visit (Walk.next c) visitor bound ⟨s, 0, false⟩ t
  match v.outcome with
  | .complete => { v with events := [.walkStarted, .walkFinished] }
  | _ => { v with events := [.walkStarted] }

/-- Ends a walk at a violation of the contract and calls a visitor on everything else. -/
def orViolation (visitor : ν → τ → Option β × τ) :
    Except ContractViolation ν → τ → Option (Except ContractViolation β) × τ
  | .error v, t => (some (.error v), t)
  | .ok node, t => ((visitor node t).1.map .ok, (visitor node t).2)

def walkVerified [SyntaxNode ν] (c : Cursor σ ν) (visitor : ν → τ → Option β × τ) (bound : Nat)
    (s : σ) (t : τ) : Visit (Except ContractViolation β) τ σ :=
  Walk.visit (Walk.nextVerified c) (orViolation visitor) bound ⟨s, 0, false⟩ t

/-- Counts the nodes on which a visitor without a wish to stop is called. -/
def counting (visitor : ν → τ → τ) (node : ν) (t : Nat × τ) : Option Empty × Nat × τ :=
  (none, t.1 + 1, visitor node t.2)

def walkAll (c : Cursor σ ν) (visitor : ν → τ → τ) (bound : Nat) (s : σ) (t : τ) :
    Visit Empty (Nat × τ) σ :=
  let v := Walk.visit (Walk.next c) (counting visitor) bound ⟨s, 0, false⟩ (0, t)
  match v.outcome with
  | .complete => { v with events := [.walkCounted v.visitor.1] }
  | _ => v

/-- The kinds of the nodes below the current one, as the last state of a visitor that collects them. -/
def kinds [SyntaxNode ν] (c : Cursor σ ν) (bound : Nat) (s : σ) : Visit Empty (Array String) σ :=
  let v := c.walkAll (fun node (kinds : Array String) => kinds.push (SyntaxNode.kind node)) bound s #[]
  { v with visitor := v.visitor.2 }

end Cursor

end GrammarShapes
