import GrammarShapes.Cursor.Visiting
import GrammarShapes.Tree.Basic

set_option autoImplicit false

/-! # Cursors in syntax trees

A cursor in a tree holds the subtree that it is on and the levels above it, up to the node where it
started. It never moves beside or above that node.
-/

namespace GrammarShapes

instance : SyntaxNode Node where
  kind := Node.kind
  range := Node.range
  same a b := a.id == b.id

namespace TreeCursor

/-- A level above the current subtree: the tree there, and its children behind the current one. -/
structure Level where
  tree : SyntaxTree
  later : List SyntaxTree

end TreeCursor

structure TreeCursor where
  current : SyntaxTree
  /-- The levels above the current subtree, innermost first. -/
  above : List TreeCursor.Level

namespace TreeCursor

/-- A cursor on the root of a tree. -/
def ofTree (t : SyntaxTree) : TreeCursor :=
  ⟨t, []⟩

def node (c : TreeCursor) : Node :=
  c.current.root

/-- How many levels the current node lies below the start. -/
def depth (c : TreeCursor) : Nat :=
  c.above.length

def firstChild (c : TreeCursor) : Bool × TreeCursor :=
  match c.current.children with
  | [] => (false, c)
  | t :: later => (true, ⟨t, ⟨c.current, later⟩ :: c.above⟩)

def nextSibling (c : TreeCursor) : Bool × TreeCursor :=
  match c.above with
  | ⟨tree, t :: later⟩ :: above => (true, ⟨t, ⟨tree, later⟩ :: above⟩)
  | _ => (false, c)

def parent (c : TreeCursor) : Bool × TreeCursor :=
  match c.above with
  | [] => (false, c)
  | level :: above => (true, ⟨level.tree, above⟩)

def move : Movement → TreeCursor → Bool × TreeCursor
  | .firstChild => firstChild
  | .nextSibling => nextSibling
  | .parent => parent

def cursor : Cursor TreeCursor Node :=
  ⟨node, move⟩

/-- A number of steps within which a walk from the current node ends. -/
def walkBound (c : TreeCursor) : Nat :=
  c.current.size

end TreeCursor

namespace SyntaxTree

def cursor (t : SyntaxTree) : TreeCursor :=
  .ofTree t

/-- A cursor that starts on the node with the given number. -/
def cursorAt? (t : SyntaxTree) (id : Nat) : Option TreeCursor :=
  (t.find? id).map .ofTree

end SyntaxTree

end GrammarShapes
