import GrammarShapes.Source.Range
import GrammarShapes.Text.Quoted

set_option autoImplicit false

/-! # Syntax trees

A syntax tree is a node with the trees below it, in document order. Every node carries a number; a tree that
was built from its events is numbered in the order in which its nodes began, the root with zero.
-/

namespace GrammarShapes

/-- What is known of a node without its children. -/
structure Node where
  id : Nat
  kind : String
  range : Range
deriving DecidableEq

namespace Node

def displayPosition (p : Position) : String :=
  "SourcePosition \x7b index: " ++ toString p.index ++ ", line: " ++ toString p.line ++
    ", column: " ++ toString p.column ++ " \x7d"

def debug (n : Node) : String :=
  "Node \x7b id: " ++ toString n.id ++ ", kind: " ++ Text.quoted n.kind ++
    ", range: SourceRange \x7b from: " ++ displayPosition n.range.start ++
    ", to: " ++ displayPosition n.range.stop ++ " \x7d \x7d"

end Node

inductive SyntaxTree where
  | node (root : Node) (children : List SyntaxTree)

namespace SyntaxTree

def root : SyntaxTree → Node
  | .node n _ => n

def children : SyntaxTree → List SyntaxTree
  | .node _ ts => ts

def leaf (n : Node) : SyntaxTree :=
  .node n []

mutual

def size : SyntaxTree → Nat
  | .node _ ts => sizeAll ts + 1

def sizeAll : List SyntaxTree → Nat
  | [] => 0
  | t :: rest => size t + sizeAll rest

end

mutual

/-- The subtrees in document order, each before the subtrees below it, followed by `rest`. -/
def subtreesOnto (rest : List SyntaxTree) : SyntaxTree → List SyntaxTree
  | .node n ts => .node n ts :: subtreesAllOnto rest ts

def subtreesAllOnto (rest : List SyntaxTree) : List SyntaxTree → List SyntaxTree
  | [] => rest
  | t :: ts => subtreesOnto (subtreesAllOnto rest ts) t

end

/-- The tree and all trees below it, in document order. -/
def subtrees (t : SyntaxTree) : List SyntaxTree :=
  subtreesOnto [] t

def nodes (t : SyntaxTree) : List Node :=
  t.subtrees.map root

/-- The subtree whose root has the given number. -/
def find? (t : SyntaxTree) (id : Nat) : Option SyntaxTree :=
  t.subtrees.find? (·.root.id == id)

mutual

/-- The subtrees in document order, each with the number of the node above it, followed by `rest`. -/
def entriesOnto (parent : Option Nat) (rest : List (Option Nat × SyntaxTree)) :
    SyntaxTree → List (Option Nat × SyntaxTree)
  | .node n ts => (parent, .node n ts) :: entriesAllOnto n.id rest ts

def entriesAllOnto (parent : Nat) (rest : List (Option Nat × SyntaxTree)) :
    List SyntaxTree → List (Option Nat × SyntaxTree)
  | [] => rest
  | t :: ts => entriesOnto (some parent) (entriesAllOnto parent rest ts) t

end

/-- The subtrees in document order, each with the number of the node above it. -/
def entries (t : SyntaxTree) : List (Option Nat × SyntaxTree) :=
  entriesOnto none [] t

mutual

theorem subtreesOnto_append (rest : List SyntaxTree) :
    ∀ t : SyntaxTree, subtreesOnto rest t = subtreesOnto [] t ++ rest
  | .node n ts => by
      simp only [subtreesOnto, subtreesAllOnto_append rest ts, List.cons_append]

theorem subtreesAllOnto_append (rest : List SyntaxTree) :
    ∀ ts : List SyntaxTree, subtreesAllOnto rest ts = subtreesAllOnto [] ts ++ rest
  | [] => rfl
  | t :: ts => by
      simp only [subtreesAllOnto]
      rw [subtreesOnto_append (subtreesAllOnto rest ts) t,
        subtreesOnto_append (subtreesAllOnto [] ts) t, subtreesAllOnto_append rest ts,
        List.append_assoc]

end

theorem subtreesAllOnto_eq_flatMap (ts : List SyntaxTree) :
    subtreesAllOnto [] ts = ts.flatMap subtrees := by
  induction ts with
  | nil => rfl
  | cons t ts ih =>
      simp only [subtreesAllOnto, List.flatMap_cons, subtrees]
      rw [subtreesOnto_append, ih]

theorem subtrees_eq (t : SyntaxTree) : t.subtrees = t :: t.children.flatMap subtrees := by
  cases t with
  | node n ts => simp only [subtrees, subtreesOnto, children, subtreesAllOnto_eq_flatMap]

mutual

theorem length_subtreesOnto (rest : List SyntaxTree) :
    ∀ t : SyntaxTree, (subtreesOnto rest t).length = t.size + rest.length
  | .node n ts => by
      simp only [subtreesOnto, size, List.length_cons, length_subtreesAllOnto rest ts]
      omega

theorem length_subtreesAllOnto (rest : List SyntaxTree) :
    ∀ ts : List SyntaxTree, (subtreesAllOnto rest ts).length = sizeAll ts + rest.length
  | [] => by simp [subtreesAllOnto, sizeAll]
  | t :: ts => by
      simp only [subtreesAllOnto, sizeAll, length_subtreesOnto _ t, length_subtreesAllOnto rest ts]
      omega

end

theorem length_subtrees (t : SyntaxTree) : t.subtrees.length = t.size := by
  simp [subtrees, length_subtreesOnto]

theorem size_pos (t : SyntaxTree) : 0 < t.size := by
  cases t
  simp [size]

end SyntaxTree

end GrammarShapes
