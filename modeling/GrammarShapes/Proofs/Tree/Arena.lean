import GrammarShapes.Proofs.Tree.Links
import GrammarShapes.Tree.Arena

set_option autoImplicit false

/-! # What an arena stores

An arena that is built from steps stores the tree that the steps build, node by node: of each node its kind
and its range, the number of the node above it and those of its children. The invariant of building is that
the arena stores what is open, outermost first, each open node with the finished trees below it; the children
of an open node are its finished trees and the next open node.
-/

namespace GrammarShapes

namespace SyntaxTree

/-- What an arena stores of the root of a tree, with the number of the node above it. -/
def stored (entry : Option Nat × SyntaxTree) : ArenaNode :=
  ⟨entry.2.root.kind, entry.2.root.range, entry.1, entry.2.children.map (·.root.id)⟩

def arenaBelow (parent : Option Nat) (t : SyntaxTree) : Arena :=
  (entriesOnto parent [] t).map stored

def arena (t : SyntaxTree) : Arena :=
  t.entries.map stored

theorem arenaBelow_eq (parent : Option Nat) (t : SyntaxTree) :
    t.arenaBelow parent =
      ⟨t.root.kind, t.root.range, parent, t.children.map (·.root.id)⟩ ::
        t.children.flatMap (arenaBelow (some t.root.id)) := by
  rw [arenaBelow, entriesOnto_eq, List.map_cons, List.map_flatMap]
  rfl

theorem isEmpty_arena (t : SyntaxTree) : t.arena.isEmpty = false := by
  change (t.arenaBelow none).isEmpty = false
  rw [arenaBelow_eq]
  rfl

theorem length_arenaBelow (parent : Option Nat) (t : SyntaxTree) :
    (t.arenaBelow parent).length = t.nodes.length := by
  rw [arenaBelow, List.length_map, ← List.length_map Prod.snd, map_snd_entriesOnto, length_nodes,
    length_subtrees]

end SyntaxTree

namespace OpenNode

/-- What is stored of an open node and of the finished trees below it; `more` are the places of its other
children. -/
def arena (parent : Option Nat) (more : List Nat) (o : OpenNode) : Arena :=
  ⟨o.root.kind, o.root.range, parent, o.finished.reverse.map (·.root.id) ++ more⟩ ::
    o.finished.reverse.flatMap (SyntaxTree.arenaBelow (some o.root.id))

/-- What is stored of open nodes, innermost first; `more` are the places of other children of the innermost
one. -/
def arenaOfAll (more : List Nat) : List OpenNode → Arena
  | [] => []
  | o :: outer => arenaOfAll [o.root.id] outer ++ o.arena (outer.head?.map (·.root.id)) more

theorem length_arena (parent : Option Nat) (more : List Nat) (o : OpenNode) :
    (o.arena parent more).length = o.nodes.length := by
  simp only [arena, nodes, List.length_cons, List.length_flatMap, SyntaxTree.length_arenaBelow]

theorem length_arenaOfAll (more : List Nat) (os : List OpenNode) :
    (arenaOfAll more os).length = (os.reverse.flatMap nodes).length := by
  induction os generalizing more with
  | nil => rfl
  | cons o outer ih =>
    rw [arenaOfAll, List.length_append, ih, length_arena, List.reverse_cons, List.flatMap_append,
      List.length_append, List.flatMap_singleton]

theorem arena_close (parent : Option Nat) (o : OpenNode) : o.arena parent [] = o.close.arenaBelow parent := by
  rw [arena, SyntaxTree.arenaBelow_eq, List.append_nil]
  rfl

theorem arenaOfAll_add (o : OpenNode) (outer : List OpenNode) (t : SyntaxTree) :
    arenaOfAll [] (o.add t :: outer) =
      arenaOfAll [t.root.id] (o :: outer) ++ t.arenaBelow (some o.root.id) := by
  simp [arenaOfAll, arena, add]

theorem modify_arenaOfAll (child : Nat) (o : OpenNode) (outer : List OpenNode) (rest : Arena) :
    (arenaOfAll [] (o :: outer) ++ rest).modify (arenaOfAll [o.root.id] outer).length (·.adopt child) =
      arenaOfAll [child] (o :: outer) ++ rest := by
  simp [arenaOfAll, arena, List.modify_eq_take_drop, ArenaNode.adopt]

end OpenNode

namespace Progress

def arena : Progress → Arena
  | .empty => []
  | .building _ inner outer => OpenNode.arenaOfAll [] (inner :: outer)
  | .complete t => t.arena

def openPlaces : Progress → List Nat
  | .building _ inner outer => (inner :: outer).map (·.root.id)
  | _ => []

def toArena (p : Progress) : ArenaBuilder :=
  ⟨p.arena, p.openPlaces, none⟩

variable {p p' : Progress} {count : Nat} {inner : OpenNode} {outer : List OpenNode} {s : BuildStep}

theorem Numbered.root_id_eq (h : (Progress.building count inner outer).Numbered) :
    inner.root.id = (OpenNode.arenaOfAll [inner.root.id] outer).length := by
  rw [OpenNode.length_arenaOfAll]
  have hPlace := congrArg (·[(outer.reverse.flatMap OpenNode.nodes).length]?) h
  simp only [nodes, OpenNode.nodes, List.map_append, List.map_cons, List.getElem?_append_right,
    List.length_map, Nat.le_refl, Nat.sub_self, List.getElem?_cons_zero] at hPlace
  obtain ⟨hLt, hId⟩ := List.getElem?_eq_some_iff.mp hPlace.symm
  rw [← hId, List.getElem_range]

theorem Numbered.length_arena (h : p.Numbered) : p.arena.length = p.count := by
  rw [h.count_eq]
  cases p with
  | empty => rfl
  | building count inner outer =>
    rw [arena, OpenNode.length_arenaOfAll, List.reverse_cons, List.flatMap_append, List.flatMap_singleton]
    rfl
  | complete t => exact t.length_arenaBelow none

theorem push_building (h : (Progress.building count inner outer).Numbered) (kind : String) (range : Range) :
    (Progress.building count inner outer).toArena.push kind range =
      (some count, ⟨OpenNode.arenaOfAll [count] (inner :: outer) ++ [⟨kind, range, some inner.root.id, []⟩],
        (inner :: outer).map (·.root.id), none⟩) := by
  have hLength : (OpenNode.arenaOfAll [] (inner :: outer)).length = count := h.length_arena
  simp only [ArenaBuilder.push, toArena, arena, openPlaces, List.map_cons, List.head?_cons, Option.isNone_some,
    Bool.false_and, Bool.false_eq_true, if_false, hLength]
  rw [h.root_id_eq, OpenNode.modify_arenaOfAll]

theorem push_complete (t : SyntaxTree) (kind : String) (range : Range) :
    (complete t).toArena.push kind range = (none, (complete t).toArena.fail (.secondRoot kind)) := by
  simp [ArenaBuilder.push, toArena, arena, openPlaces, t.isEmpty_arena]

theorem start_toArena (h : p.Numbered) {kind : String} {range : Range} (hStep : p.start kind range = .ok p') :
    p.toArena.start kind range = p'.toArena := by
  cases p with
  | empty =>
    cases hStep
    rfl
  | building count inner outer =>
    cases hStep
    rw [ArenaBuilder.start, push_building h]
    rfl
  | complete t => cases hStep

theorem token_toArena (h : p.Numbered) {kind : String} {range : Range} (hStep : p.token kind range = .ok p') :
    p.toArena.token kind range = p'.toArena := by
  cases p with
  | empty =>
    cases hStep
    rfl
  | building count inner outer =>
    cases hStep
    rw [ArenaBuilder.token, push_building h, toArena, arena, OpenNode.arenaOfAll_add]
    rfl
  | complete t => cases hStep

theorem finish_toArena (hStep : p.finish = .ok p') : p.toArena.finishNode = p'.toArena := by
  cases p with
  | empty | complete _ => cases hStep
  | building count inner outer =>
    -- what is stored of the innermost node is what is stored of the tree that it becomes
    cases outer with
    | nil =>
      cases hStep
      exact congrArg (ArenaBuilder.mk · [] none) (inner.arena_close none)
    | cons next outer =>
      cases hStep
      rw [toArena, toArena, arena, arena, OpenNode.arenaOfAll_add, OpenNode.arenaOfAll, OpenNode.arena_close]
      rfl

theorem step_toArena (h : p.Numbered) (hStep : p.step s = .ok p') : p.toArena.step s = p'.toArena := by
  cases s with
  | start kind range => exact start_toArena h hStep
  | token kind range => exact token_toArena h hStep
  | finish => exact finish_toArena hStep

theorem error_step_toArena {e : TreeError} (hStep : p.step s = .error e) :
    (p.toArena.step s).error = some e := by
  cases p with
  | empty =>
    cases s <;> cases hStep
    rfl
  | building count inner outer =>
    cases s with
    | start _ _ | token _ _ => cases hStep
    | finish => cases outer <;> cases hStep
  | complete t =>
    cases s with
    | start kind range =>
      cases hStep
      rw [ArenaBuilder.step, ArenaBuilder.start, push_complete]
      rfl
    | token kind range =>
      cases hStep
      rw [ArenaBuilder.step, ArenaBuilder.token, push_complete]
      rfl
    | finish =>
      cases hStep
      rfl

theorem finish_toArena_eq (p : Progress) : p.toArena.finish = p.tree.map SyntaxTree.arena := by
  cases p with
  | empty => rfl
  | building count inner outer =>
    have hSome : (OpenNode.arenaOfAll [] (inner :: outer)).isEmpty = false := by
      simp [OpenNode.arenaOfAll, OpenNode.arena]
    simp [ArenaBuilder.finish, toArena, arena, openPlaces, hSome, tree, Except.map]
  | complete t => simp [ArenaBuilder.finish, toArena, arena, openPlaces, t.isEmpty_arena, tree, Except.map]

end Progress

namespace ArenaBuilder

variable {b : ArenaBuilder} {e : TreeError}

theorem error_push (h : b.error = some e) (kind : String) (range : Range) :
    (b.push kind range).2.error = some e := by
  cases hHead : b.opened.head? with
  | none => cases hEmpty : b.nodes.isEmpty <;> simp [push, hHead, hEmpty, fail, h]
  | some parent => simp [push, hHead, h]

theorem error_step (h : b.error = some e) (s : BuildStep) : (b.step s).error = some e := by
  cases s with
  | start kind range =>
    have hPush := error_push h kind range
    rw [step, start]
    split <;> simp_all
  | token kind range => exact error_push h kind range
  | finish =>
    rw [step, finishNode]
    split
    · simp [fail, h]
    · exact h

def Represents (b : ArenaBuilder) : TreeBuilder → Prop
  | .ok p => b = p.toArena
  | .error e => b.error = some e

theorem Represents.step {tb : TreeBuilder} (h : b.Represents tb) (hNumbered : ∀ p, tb = .ok p → p.Numbered)
    (s : BuildStep) : (b.step s).Represents (tb.step s) := by
  cases tb with
  | error e => exact error_step h s
  | ok p =>
    obtain rfl : b = p.toArena := h
    rw [TreeBuilder.step]
    cases hStep : p.step s with
    | ok p' =>
      change Represents _ (p.step s)
      rw [hStep]
      exact p.step_toArena (hNumbered p rfl) hStep
    | error e =>
      change Represents _ (p.step s)
      rw [hStep]
      exact p.error_step_toArena hStep

theorem Represents.run {tb : TreeBuilder} (h : b.Represents tb) (hNumbered : ∀ p, tb = .ok p → p.Numbered)
    (steps : List BuildStep) : (b.run steps).Represents (tb.run steps) := by
  induction steps generalizing b tb with
  | nil => exact h
  | cons s steps ih =>
    have hNext : ∀ p, tb.run [s] = .ok p → p.Numbered := TreeBuilder.numbered_run hNumbered
    exact ih (h.step hNumbered s) hNext

theorem Represents.finish_eq {tb : TreeBuilder} (h : b.Represents tb) :
    b.finish = tb.finish.map SyntaxTree.arena := by
  cases tb with
  | ok p =>
    obtain rfl : b = p.toArena := h
    exact p.finish_toArena_eq
  | error e =>
    have hError : b.error = some e := h
    rw [finish, hError]
    rfl

/-- Steps build in an arena what they build as a tree, and they fail with the same error. -/
theorem finish_run (steps : List BuildStep) :
    (run {} steps).finish = (SyntaxTree.ofSteps steps).map SyntaxTree.arena := by
  have hNew : Represents {} TreeBuilder.new := rfl
  refine (hNew.run (fun p hp => ?_) steps).finish_eq
  cases hp
  rfl

example : (run {} [.start "list" {}, .token "word" {}, .finish]).finish =
    .ok [⟨"list", {}, none, [1]⟩, ⟨"word", {}, some 0, []⟩] := rfl

end ArenaBuilder

theorem SyntaxTree.exists_entry_of_getElem?_arena {t : SyntaxTree} {i : Nat} {n : ArenaNode}
    (h : t.arena[i]? = some n) : ∃ parent s, t.entries[i]? = some (parent, s) ∧ n = stored (parent, s) := by
  rw [arena, List.getElem?_map] at h
  obtain ⟨⟨parent, s⟩, hEntry, hSame⟩ := Option.map_eq_some_iff.mp h
  exact ⟨parent, s, hEntry, hSame.symm⟩

namespace SyntaxTree.Numbered

variable {s t : SyntaxTree} {i : Nat} {n : ArenaNode}

theorem exists_getElem?_entries (h : t.Numbered) (hs : s ∈ t.subtrees) :
    ∃ parent, t.entries[s.root.id]? = some (parent, s) := by
  rw [← map_snd_entries] at hs
  obtain ⟨⟨parent, _⟩, hMem, rfl⟩ := List.mem_map.mp hs
  obtain ⟨i, hi⟩ := List.getElem?_of_mem hMem
  obtain rfl := h.getElem?_entries hi
  exact ⟨parent, hi⟩

theorem getElem?_arena (h : t.Numbered) (hs : s ∈ t.subtrees) :
    ∃ parent, t.arena[s.root.id]? = some (stored (parent, s)) := by
  obtain ⟨parent, hEntry⟩ := h.exists_getElem?_entries hs
  exact ⟨parent, by rw [arena, List.getElem?_map, hEntry]; rfl⟩

/-- The links that are stored lead forth and back: node zero alone has no parent, every other node stands
behind its parent and among the children of no other, once, and the children of a node stand in order. -/
theorem arena_links (h : t.Numbered) (hn : t.arena[i]? = some n) :
    (n.parent = none ↔ i = 0) ∧ (∀ p, n.parent = some p → p < i) ∧ n.children.Pairwise (· < ·) ∧
      (∀ c ∈ n.children, ∃ m, t.arena[c]? = some m ∧ m.parent = some i) ∧
      ∀ j m, t.arena[j]? = some m → m.children.count i = if n.parent = some j then 1 else 0 := by
  obtain ⟨parent, s, hEntry, rfl⟩ := exists_entry_of_getElem?_arena hn
  have hLinked := h.linked hEntry
  refine ⟨hLinked.parent_eq_none_iff, hLinked.parent_lt, hLinked.children_lt, ?_, ?_⟩
  · intro c hc
    obtain ⟨u, hu, rfl⟩ := List.mem_map.mp hc
    have hs : s ∈ t.subtrees := mem_subtrees_of_mem_entries (List.mem_of_getElem? hEntry)
    have hChild : (some s.root.id, u) ∈ t.entries := mem_entries_iff.mpr (Or.inr ⟨s, hs, hu, rfl⟩)
    obtain ⟨k, hk⟩ := List.getElem?_of_mem hChild
    obtain rfl := h.getElem?_entries hk
    obtain rfl := h.getElem?_entries hEntry
    exact ⟨_, by rw [arena, List.getElem?_map, hk]; rfl, rfl⟩
  · intro j m hm
    obtain ⟨above, u, hOther, rfl⟩ := exists_entry_of_getElem?_arena hm
    exact hLinked.count_children j above u hOther

end SyntaxTree.Numbered

end GrammarShapes
