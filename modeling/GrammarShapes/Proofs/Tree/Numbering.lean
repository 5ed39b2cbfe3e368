import GrammarShapes.Tree.Builder
import GrammarShapes.Tree.Cursor

set_option autoImplicit false

/-! # The numbering of built trees

The nodes of a tree that was built from steps are numbered in document order, from zero. The invariant of
building is that the nodes of all open trees, outermost first and each with the finished trees below it, are
numbered in this way. So the nodes of every subtree have consecutive numbers, and a node is found by its
number.
-/

namespace GrammarShapes

namespace SyntaxTree

theorem nodes_eq (t : SyntaxTree) : t.nodes = t.root :: t.children.flatMap nodes := by
  rw [nodes, subtrees_eq, List.map_cons, List.map_flatMap]
  rfl

theorem length_nodes (t : SyntaxTree) : t.nodes.length = t.size := by
  rw [nodes, List.length_map, length_subtrees]

theorem mem_subtrees_self (t : SyntaxTree) : t ∈ t.subtrees := by
  rw [subtrees_eq]
  exact List.mem_cons_self

theorem infix_subtrees_of_mem_children {t c : SyntaxTree} (h : c ∈ t.children) :
    c.subtrees <:+: t.subtrees := by
  obtain ⟨before, after, hChildren⟩ := List.append_of_mem h
  refine ⟨t :: before.flatMap subtrees, after.flatMap subtrees, ?_⟩
  rw [subtrees_eq t, hChildren]
  simp

theorem induction {motive : SyntaxTree → Prop} (step : ∀ t, (∀ c ∈ t.children, motive c) → motive t)
    (t : SyntaxTree) : motive t := by
  apply step
  intro c hc
  exact induction step c
termination_by sizeOf t
decreasing_by
  cases t with
  | node n ts =>
    have hLt := List.sizeOf_lt_of_mem hc
    simp only [children] at hLt
    simp only [node.sizeOf_spec]
    omega

theorem infix_subtrees {s t : SyntaxTree} (h : s ∈ t.subtrees) : s.subtrees <:+: t.subtrees := by
  induction t using induction with
  | step t ih =>
    rw [subtrees_eq] at h
    rcases List.mem_cons.mp h with rfl | h
    · exact List.infix_refl _
    · obtain ⟨c, hc, hs⟩ := List.mem_flatMap.mp h
      exact (ih c hc hs).trans (infix_subtrees_of_mem_children hc)

def Numbered (t : SyntaxTree) : Prop :=
  t.nodes.map Node.id = List.range t.size

namespace Numbered

variable {s t : SyntaxTree}

theorem exists_append (h : t.Numbered) (hs : s ∈ t.subtrees) :
    ∃ before after, t.subtrees = before ++ s.subtrees ++ after ∧
      before.map (·.root.id) = List.range s.root.id ∧
      s.nodes.map Node.id = List.range' s.root.id s.size := by
  obtain ⟨before, after, hSubtrees⟩ := infix_subtrees hs
  have hIds : List.range' 0 t.size = (before.map (·.root.id) ++ s.nodes.map Node.id) ++
      after.map (·.root.id) := by
    rw [← List.range_eq_range', ← h, nodes, nodes, ← hSubtrees]
    simp only [List.map_append, List.map_map]
    rfl
  obtain ⟨last, -, hFront, -⟩ := List.range'_eq_append_iff.mp hIds
  obtain ⟨first, -, hBefore, hOwn⟩ := List.range'_eq_append_iff.mp hFront.symm
  rw [Nat.zero_add, Nat.mul_one] at hOwn
  have hSize : last - first = s.size := by
    rw [← length_nodes, ← List.length_map Node.id, hOwn, List.length_range']
  have hFirst : first = s.root.id := by
    have hHead : (s.nodes.map Node.id).head? = some s.root.id := by
      rw [nodes_eq]
      rfl
    rw [hOwn, hSize, List.head?_range', if_neg (by have := s.size_pos; omega)] at hHead
    exact Option.some.inj hHead
  rw [hSize, hFirst] at hOwn
  rw [hFirst, ← List.range_eq_range'] at hBefore
  exact ⟨before, after, hSubtrees.symm, hBefore, hOwn⟩

theorem find?_root_id (h : t.Numbered) (hs : s ∈ t.subtrees) : t.find? s.root.id = some s := by
  obtain ⟨before, after, hSubtrees, hBefore, -⟩ := h.exists_append hs
  rw [find?, List.find?_eq_some_iff_append]
  refine ⟨beq_self_eq_true _, before, s.children.flatMap subtrees ++ after, ?_, fun u hu => ?_⟩
  · rw [hSubtrees, subtrees_eq s]
    simp
  · have hId : u.root.id ∈ before.map (·.root.id) := List.mem_map_of_mem hu
    rw [hBefore, List.mem_range] at hId
    simp
    omega

theorem cursorAt?_root_id (h : t.Numbered) (hs : s ∈ t.subtrees) :
    t.cursorAt? s.root.id = some (.ofTree s) := by
  rw [cursorAt?, h.find?_root_id hs]
  rfl

end Numbered

end SyntaxTree

def BuildStep.node? (id : Nat) : BuildStep → Option Node
  | .start kind range | .token kind range => some ⟨id, kind, range⟩
  | .finish => none

namespace OpenNode

def nodes (o : OpenNode) : List Node :=
  o.root :: o.finished.reverse.flatMap SyntaxTree.nodes

theorem nodes_add (o : OpenNode) (t : SyntaxTree) : (o.add t).nodes = o.nodes ++ t.nodes := by
  simp [nodes, add]

theorem nodes_close (o : OpenNode) : o.close.nodes = o.nodes := by
  rw [SyntaxTree.nodes_eq]
  rfl

end OpenNode

namespace Progress

def nodes : Progress → List Node
  | .empty => []
  | .building _ inner outer => outer.reverse.flatMap OpenNode.nodes ++ inner.nodes
  | .complete t => t.nodes

def count : Progress → Nat
  | .empty => 0
  | .building count _ _ => count
  | .complete t => t.size

def Numbered (p : Progress) : Prop :=
  p.nodes.map Node.id = List.range p.count

theorem Numbered.count_eq {p : Progress} (h : p.Numbered) : p.count = p.nodes.length := by
  rw [← List.length_map Node.id, h, List.length_range]

theorem numbered_append {nodes : List Node} {count : Nat} (kind : String) (range : Range)
    (h : nodes.map Node.id = List.range count) :
    (nodes ++ [Node.mk count kind range]).map Node.id = List.range (count + 1) := by
  rw [List.map_append, h, List.range_succ]
  rfl

/-- A step adds one node with the next number behind all others, or none. -/
theorem nodes_step {p p' : Progress} {s : BuildStep} (h : p.step s = .ok p') :
    p'.nodes = p.nodes ++ (s.node? p.count).toList := by
  cases s with
  | start kind range =>
    cases p with
    | empty =>
      cases h
      rfl
    | building count inner outer =>
      cases h
      simp [nodes, OpenNode.nodes, Progress.count, BuildStep.node?]
    | complete t => cases h
  | token kind range =>
    cases p with
    | empty =>
      cases h
      rfl
    | building count inner outer =>
      cases h
      rw [nodes, OpenNode.nodes_add, ← List.append_assoc]
      rfl
    | complete t => cases h
  | finish =>
    rw [BuildStep.node?, Option.toList_none, List.append_nil]
    cases p with
    | empty => cases h
    | building count inner outer =>
      cases outer with
      | nil =>
        cases h
        exact OpenNode.nodes_close inner
      | cons next outer =>
        cases h
        simp [nodes, OpenNode.nodes_add, OpenNode.nodes_close]
    | complete t => cases h

theorem Numbered.step {p p' : Progress} {s : BuildStep} (h : p.Numbered) (hStep : p.step s = .ok p') :
    p'.Numbered := by
  have hNodes := nodes_step hStep
  cases s with
  | start kind range | token kind range =>
    cases p with
    | empty =>
      cases hStep
      rfl
    | building count inner outer =>
      cases hStep
      rw [Numbered, hNodes]
      exact numbered_append kind range h
    | complete t => cases hStep
  | finish =>
    rw [BuildStep.node?, Option.toList_none, List.append_nil] at hNodes
    cases p with
    | empty => cases hStep
    | building count inner outer =>
      cases outer with
      | nil =>
        cases hStep
        have hSize : inner.close.size = count := by
          rw [← SyntaxTree.length_nodes]
          exact (congrArg List.length hNodes).trans h.count_eq.symm
        rw [Numbered, hNodes, Progress.count, hSize]
        exact h
      | cons next outer =>
        cases hStep
        rw [Numbered, hNodes]
        exact h
    | complete t => cases hStep

end Progress

theorem TreeBuilder.numbered_run {b : TreeBuilder} {steps : List BuildStep}
    (h : ∀ p, b = .ok p → p.Numbered) : ∀ p, b.run steps = .ok p → p.Numbered := by
  induction steps generalizing b with
  | nil => exact h
  | cons s rest ih =>
    apply ih
    intro p hStep
    cases b with
    | error e => cases hStep
    | ok before => exact (h before rfl).step hStep

namespace SyntaxTree

theorem numbered_of_ofSteps {steps : List BuildStep} {t : SyntaxTree} (h : ofSteps steps = .ok t) :
    t.Numbered := by
  have hNew : ∀ p, TreeBuilder.new = .ok p → p.Numbered := by
    intro p hp
    cases hp
    rfl
  cases hRun : TreeBuilder.new.run steps with
  | error e =>
    rw [ofSteps, hRun] at h
    cases h
  | ok p =>
    have hNumbered := TreeBuilder.numbered_run hNew p hRun
    rw [ofSteps, hRun] at h
    cases p with
    | empty | building _ _ _ => cases h
    | complete tree =>
      cases h
      exact hNumbered

end SyntaxTree

end GrammarShapes
