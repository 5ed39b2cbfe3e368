import GrammarShapes.Tree.Basic

set_option autoImplicit false

/-! # Building trees

A tree is built from steps in the order of the text: a node starts, a node without children is added, the
innermost open node is finished. The nodes are numbered in the order in which they are added. A step that
does not fit is an error, and the first error decides the outcome.
-/

namespace GrammarShapes

inductive TreeError where
  | empty
  | noOpenNode
  | unclosed (count : Nat)
  | secondRoot (kind : String)
  | missingKind
deriving DecidableEq

def TreeError.message : TreeError → String
  | .empty => "tree has no root node"
  | .noOpenNode => "`finish_node` called with no open node"
  | .unclosed count => toString count ++ " node(s) left open"
  | .secondRoot kind => "a second root node `" ++ kind ++ "` was started"
  | .missingKind => "expected a node kind after `(`"

inductive BuildStep where
  | start (kind : String) (range : Range)
  | token (kind : String) (range : Range)
  | finish
deriving DecidableEq

/-- A node that has started, with the finished trees directly below it, last one first. -/
structure OpenNode where
  root : Node
  finished : List SyntaxTree

namespace OpenNode

def add (o : OpenNode) (t : SyntaxTree) : OpenNode :=
  { o with finished := t :: o.finished }

def close (o : OpenNode) : SyntaxTree :=
  .node o.root o.finished.reverse

end OpenNode

/-- A tree as far as it has been built. -/
inductive Progress where
  | empty
  /-- `count` nodes have been added and some are open; the innermost one stands first. -/
  | building (count : Nat) (inner : OpenNode) (outer : List OpenNode)
  | complete (tree : SyntaxTree)

namespace Progress

def start (kind : String) (range : Range) : Progress → Except TreeError Progress
  | .empty => .ok (.building 1 ⟨⟨0, kind, range⟩, []⟩ [])
  | .building count inner outer =>
      .ok (.building (count + 1) ⟨⟨count, kind, range⟩, []⟩ (inner :: outer))
  | .complete _ => .error (.secondRoot kind)

def token (kind : String) (range : Range) : Progress → Except TreeError Progress
  | .empty => .ok (.complete (.leaf ⟨0, kind, range⟩))
  | .building count inner outer =>
      .ok (.building (count + 1) (inner.add (.leaf ⟨count, kind, range⟩)) outer)
  | .complete _ => .error (.secondRoot kind)

def finish : Progress → Except TreeError Progress
  | .empty => .error .noOpenNode
  | .building _ inner [] => .ok (.complete inner.close)
  | .building count inner (next :: outer) => .ok (.building count (next.add inner.close) outer)
  | .complete _ => .error .noOpenNode

def step (p : Progress) : BuildStep → Except TreeError Progress
  | .start kind range => p.start kind range
  | .token kind range => p.token kind range
  | .finish => p.finish

/-- The tree, if it has been built whole. -/
def tree : Progress → Except TreeError SyntaxTree
  | .empty => .error .empty
  | .building _ _ outer => .error (.unclosed (outer.length + 1))
  | .complete t => .ok t

end Progress

/-- A builder has got so far without an error, or holds the first error. -/
abbrev TreeBuilder :=
  Except TreeError Progress

namespace TreeBuilder

def new : TreeBuilder :=
  .ok .empty

def step (b : TreeBuilder) (s : BuildStep) : TreeBuilder :=
  b.bind (·.step s)

def run (b : TreeBuilder) (steps : List BuildStep) : TreeBuilder :=
  steps.foldl step b

/-- The tree that has been built, or why there is none. -/
def finish (b : TreeBuilder) : Except TreeError SyntaxTree :=
  b.bind Progress.tree

end TreeBuilder

namespace SyntaxTree

/-- The tree that the steps build. -/
def ofSteps (steps : List BuildStep) : Except TreeError SyntaxTree :=
  (TreeBuilder.new.run steps).finish

end SyntaxTree

end GrammarShapes
