import GrammarShapes.Cursor.Basic

set_option autoImplicit false

/-! # Walks

A walk visits the nodes below the node that its cursor starts on, in document order: a node before its
children, a subtree before the next sibling. It tries the first child, then the next sibling, then climbs
until a sibling is found. It has come to its end when it is back at the level where it started or when no
move is left. It keeps nothing but the cursor's state and the number of levels between the current node
and the start.
-/

namespace GrammarShapes

structure Walk (σ : Type) where
  cursor : σ
  /-- How many levels the current node lies below the start. -/
  depth : Nat := 0
  finished : Bool := false

namespace Walk

variable {σ ν ε : Type}

/-- Looks for the next node beside or above a subtree that has been visited. -/
def climb (attempt : Movement → σ → Except ε Bool × σ) : Nat → σ → Except ε Bool × Walk σ
  | 0, s => (.ok false, ⟨s, 0, true⟩)
  | depth + 1, s =>
      match attempt .nextSibling s with
      | (.error e, s) => (.error e, ⟨s, depth + 1, true⟩)
      | (.ok true, s) => (.ok true, ⟨s, depth + 1, false⟩)
      | (.ok false, s) =>
          match attempt .parent s with
          | (.error e, s) => (.error e, ⟨s, depth + 1, true⟩)
          | (.ok true, s) => climb attempt depth s
          | (.ok false, s) => (.ok false, ⟨s, depth + 1, true⟩)

/-- Goes on to the next node. Says whether there is one, or what went wrong with a move; a walk that has
finished stays as it is. -/
def advance (attempt : Movement → σ → Except ε Bool × σ) (w : Walk σ) : Except ε Bool × Walk σ :=
  if w.finished then (.ok false, w)
  else
    match attempt .firstChild w.cursor with
    | (.error e, s) => (.error e, ⟨s, w.depth, true⟩)
    | (.ok true, s) => (.ok true, ⟨s, w.depth + 1, false⟩)
    | (.ok false, s) => climb attempt w.depth s

def next (c : Cursor σ ν) (w : Walk σ) : Option ν × Walk σ :=
  match w.advance c.trust with
  | (.ok true, w) => (some (c.node w.cursor), w)
  | (.ok false, w) => (none, w)

/-- The next node, if there is one, or the violation of the contract that ends the walk. -/
def nextVerified [SyntaxNode ν] (c : Cursor σ ν) (w : Walk σ) :
    Option (Except ContractViolation ν) × Walk σ :=
  match w.advance c.verify with
  | (.error v, w) => (some (.error v), w)
  | (.ok true, w) => (some (.ok (c.node w.cursor)), w)
  | (.ok false, w) => (none, w)

variable {α : Type}

/-- The next items, at most `count`, each with the depth of the walk at that moment. -/
def take (next : Walk σ → Option α × Walk σ) : Nat → Walk σ → List (α × Nat) × Walk σ
  | 0, w => ([], w)
  | count + 1, w =>
      match next w with
      | (none, w) => ([], w)
      | (some a, w) =>
          let (rest, last) := take next count w
          ((a, w.depth) :: rest, last)

end Walk

end GrammarShapes
