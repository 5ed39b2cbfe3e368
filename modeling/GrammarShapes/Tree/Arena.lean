import GrammarShapes.Tree.Builder
import GrammarShapes.Tree.Cursor

set_option autoImplicit false

/-! # Trees in arenas

An arena keeps the nodes of a tree in one row, in the order in which they were added. What it stores of a
node tells the places of the parent and of the children in this row. A builder knows the places of the open
nodes; it goes on behind an error and reports the first one in the end. A cursor knows the place of its node
and, for each level above it, the place of the parent with the index of the child there.
-/

namespace GrammarShapes

/-- What an arena stores of a node. -/
structure ArenaNode where
  kind : String
  range : Range
  parent : Option Nat
  children : List Nat
deriving DecidableEq

def ArenaNode.adopt (n : ArenaNode) (child : Nat) : ArenaNode :=
  { n with children := n.children ++ [child] }

/-- The nodes in the order in which they were added; the root stands first. -/
abbrev Arena :=
  List ArenaNode

structure ArenaBuilder where
  nodes : Arena := []
  /-- The places of the open nodes, innermost first. -/
  opened : List Nat := []
  error : Option TreeError := none

namespace ArenaBuilder

def fail (b : ArenaBuilder) (e : TreeError) : ArenaBuilder :=
  { b with error := b.error.or (some e) }

/-- Adds a node below the innermost open one and gives its place, unless it would be a second root. -/
def push (b : ArenaBuilder) (kind : String) (range : Range) : Option Nat × ArenaBuilder :=
  let parent := b.opened.head?
  if parent.isNone && !b.nodes.isEmpty then (none, b.fail (.secondRoot kind))
  else
    let id := b.nodes.length
    let nodes := b.nodes ++ [⟨kind, range, parent, []⟩]
    match parent with
    | none => (some id, { b with nodes })
    | some parent => (some id, { b with nodes := nodes.modify parent (·.adopt id) })

def start (b : ArenaBuilder) (kind : String) (range : Range) : ArenaBuilder :=
  match b.push kind range with
  | (some id, b) => { b with opened := id :: b.opened }
  | (none, b) => b

def token (b : ArenaBuilder) (kind : String) (range : Range) : ArenaBuilder :=
  (b.push kind range).2

def finishNode (b : ArenaBuilder) : ArenaBuilder :=
  match b.opened with
  | [] => b.fail .noOpenNode
  | _ :: outer => { b with opened := outer }

def step (b : ArenaBuilder) : BuildStep → ArenaBuilder
  | .start kind range => b.start kind range
  | .token kind range => b.token kind range
  | .finish => b.finishNode

def run (b : ArenaBuilder) (steps : List BuildStep) : ArenaBuilder :=
  steps.foldl step b

def finish (b : ArenaBuilder) : Except TreeError Arena :=
  match b.error with
  | some e => .error e
  | none =>
      if b.nodes.isEmpty then .error .empty
      else if b.opened.isEmpty then .ok b.nodes
      else .error (.unclosed b.opened.length)

end ArenaBuilder

namespace Arena

def node? (a : Arena) (i : Nat) : Option Node :=
  a[i]?.map fun n => ⟨i, n.kind, n.range⟩

/-- The places of the children of a node; there are none below a place that is not in the arena. -/
def children (a : Arena) (i : Nat) : List Nat :=
  match a[i]? with
  | some n => n.children
  | none => []

end Arena

structure ArenaCursor where
  current : Nat
  /-- For each level above the current node, innermost first: the place of the parent, and the index among its
  children of the node below. -/
  ancestors : List (Nat × Nat) := []
deriving DecidableEq

namespace ArenaCursor

variable (a : Arena)

/-- The current node. Every node that a cursor comes to is in its arena. -/
def node (c : ArenaCursor) : Node :=
  (a.node? c.current).getD ⟨c.current, "", {}⟩

def firstChild (c : ArenaCursor) : Bool × ArenaCursor :=
  match (a.children c.current).head? with
  | some child => (true, ⟨child, (c.current, 0) :: c.ancestors⟩)
  | none => (false, c)

def nextSibling (c : ArenaCursor) : Bool × ArenaCursor :=
  match c.ancestors with
  | [] => (false, c)
  | (parent, i) :: outer =>
      match (a.children parent)[i + 1]? with
      | some sibling => (true, ⟨sibling, (parent, i + 1) :: outer⟩)
      | none => (false, c)

def parent (c : ArenaCursor) : Bool × ArenaCursor :=
  match c.ancestors with
  | [] => (false, c)
  | (parent, _) :: outer => (true, ⟨parent, outer⟩)

def move : Movement → ArenaCursor → Bool × ArenaCursor
  | .firstChild => firstChild a
  | .nextSibling => nextSibling a
  | .parent => parent

def cursor : Cursor ArenaCursor Node :=
  ⟨node a, move a⟩

end ArenaCursor

end GrammarShapes
