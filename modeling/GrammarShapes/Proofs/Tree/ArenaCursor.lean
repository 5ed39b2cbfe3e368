import GrammarShapes.Proofs.Cursor.Simulation
import GrammarShapes.Proofs.Tree.Arena
import GrammarShapes.Proofs.Tree.Moves

set_option autoImplicit false

/-! # Cursors in arenas

A cursor in an arena does what the cursor in the stored tree does: it holds the number of the node of the
current subtree and, for each level above it, the number of the parent and how many children stand before
the one below. So its moves, its walks, its visits and its outlines are those in the tree, and it never
comes to a place that is not in the arena.
-/

namespace GrammarShapes

namespace SyntaxTree.Numbered

variable {s t : SyntaxTree}

theorem node?_arena (h : t.Numbered) (hs : s ∈ t.subtrees) : t.arena.node? s.root.id = some s.root := by
  obtain ⟨parent, hStored⟩ := h.getElem?_arena hs
  rw [Arena.node?, hStored]
  rfl

theorem children_arena (h : t.Numbered) (hs : s ∈ t.subtrees) :
    t.arena.children s.root.id = s.children.map (·.root.id) := by
  obtain ⟨parent, hStored⟩ := h.getElem?_arena hs
  rw [Arena.children, hStored]
  rfl

end SyntaxTree.Numbered

namespace TreeCursor

open SyntaxTree

/-- The place of the tree at a level, and the index among its children of the one below. -/
def Level.toArena (level : Level) : Nat × Nat :=
  (level.tree.root.id, level.tree.children.length - (level.later.length + 1))

def toArena (c : TreeCursor) : ArenaCursor :=
  ⟨c.current.root.id, c.above.map Level.toArena⟩

variable {s t : SyntaxTree} {c : TreeCursor}

theorem toArena_level {p u : SyntaxTree} {before later : List SyntaxTree}
    (h : p.children = before ++ u :: later) : Level.toArena ⟨p, later⟩ = (p.root.id, before.length) := by
  simp [Level.toArena, h]

theorem firstChild_toArena (hNumbered : t.Numbered) (hCurrent : c.current ∈ t.subtrees) :
    ArenaCursor.firstChild t.arena c.toArena = ((firstChild c).1, (firstChild c).2.toArena) := by
  rw [ArenaCursor.firstChild, toArena, hNumbered.children_arena hCurrent]
  cases hChildren : c.current.children with
  | nil => simp [firstChild, hChildren, toArena]
  | cons u later =>
    have hLevel : Level.toArena ⟨c.current, later⟩ = (c.current.root.id, 0) :=
      toArena_level (show c.current.children = [] ++ u :: later from hChildren)
    simp [firstChild, hChildren, toArena, hLevel]

theorem Chain.nextSibling_toArena (h : Chain s c.current c.above) (hNumbered : t.Numbered)
    (hs : s ∈ t.subtrees) :
    ArenaCursor.nextSibling t.arena c.toArena = ((nextSibling c).1, (nextSibling c).2.toArena) := by
  obtain ⟨current, above⟩ := c
  cases h with
  | start => rfl
  | @down p _ before later above hAbove hChildren =>
    have hp : p ∈ t.subtrees := (infix_subtrees hs).mem hAbove.mem_subtrees
    rw [ArenaCursor.nextSibling, toArena, List.map_cons, toArena_level hChildren]
    simp only [hNumbered.children_arena hp]
    rw [hChildren]
    cases later with
    | nil => simp [nextSibling, toArena, toArena_level hChildren]
    | cons v later =>
      have hLevel : Level.toArena ⟨p, later⟩ = (p.root.id, before.length + 1) := by
        rw [List.append_cons] at hChildren
        rw [toArena_level hChildren, List.length_append]
        rfl
      simp [nextSibling, toArena, hLevel]

theorem parent_toArena (c : TreeCursor) :
    ArenaCursor.parent c.toArena = ((parent c).1, (parent c).2.toArena) := by
  obtain ⟨current, above⟩ := c
  cases above <;> rfl

theorem carries_toArena (hNumbered : t.Numbered) (hs : s ∈ t.subtrees) :
    Cursor.Carries (fun c => Chain s c.current c.above) toArena cursor (ArenaCursor.cursor t.arena) where
  node_eq h := by
    have hCurrent := (infix_subtrees hs).mem h.mem_subtrees
    change (t.arena.node? _).getD _ = _
    rw [toArena, hNumbered.node?_arena hCurrent]
    rfl
  move h m := by
    refine ⟨h.move m, ?_⟩
    cases m with
    | firstChild => exact firstChild_toArena hNumbered ((infix_subtrees hs).mem h.mem_subtrees)
    | nextSibling => exact h.nextSibling_toArena hNumbered hs
    | parent => exact parent_toArena _

variable {τ β : Type}

/-- Steps that build a tree build the arena that stores it. There a cursor on a node moves as in the tree,
however it has moved before, and its walks, visits and outlines are those in the tree. -/
theorem arena_of_ofSteps {steps : List BuildStep} (h : SyntaxTree.ofSteps steps = .ok t)
    (hs : s ∈ t.subtrees) :
    (ArenaBuilder.run {} steps).finish = .ok t.arena ∧
    (ofTree s).toArena = ⟨s.root.id, []⟩ ∧
    (∀ moves m, ArenaCursor.move t.arena m ((ofTree s).moved moves).toArena =
      ((move m ((ofTree s).moved moves)).1, (move m ((ofTree s).moved moves)).2.toArena)) ∧
    (∀ bound, Walk.take (Walk.next (ArenaCursor.cursor t.arena)) bound ⟨⟨s.root.id, []⟩, 0, false⟩ =
      ((Walk.take (Walk.next cursor) bound ⟨.ofTree s, 0, false⟩).1,
        (Walk.take (Walk.next cursor) bound ⟨.ofTree s, 0, false⟩).2.mapCursor toArena)) ∧
    (∀ (visitor : Node → τ → Option β × τ) bound start,
      (ArenaCursor.cursor t.arena).walk visitor bound ⟨s.root.id, []⟩ start =
        (cursor.walk visitor bound (.ofTree s) start).mapCursor toArena) ∧
    (∀ (visitor : Node → τ → Option β × τ) bound start,
      (ArenaCursor.cursor t.arena).walkVerified visitor bound ⟨s.root.id, []⟩ start =
        (cursor.walkVerified visitor bound (.ofTree s) start).mapCursor toArena) ∧
    ∀ (o : Outline) bound, (o.text (ArenaCursor.cursor t.arena) bound ⟨s.root.id, []⟩).1 =
      (o.text cursor bound (.ofTree s)).1 := by
  have hCarries := carries_toArena (SyntaxTree.numbered_of_ofSteps h) hs
  have hStart : Chain s (ofTree s).current (ofTree s).above := .start
  refine ⟨?_, rfl, fun moves m => (hCarries.move (chain_moved hStart moves) m).2,
    fun bound => hCarries.take_eq hStart bound,
    fun visitor bound start => hCarries.walk_eq hStart visitor bound start,
    fun visitor bound start => hCarries.walkVerified_eq hStart visitor bound start,
    fun o bound => congrArg Prod.fst (hCarries.text_eq hStart o bound)⟩
  rw [ArenaBuilder.finish_run, h]
  rfl

end TreeCursor

end GrammarShapes
