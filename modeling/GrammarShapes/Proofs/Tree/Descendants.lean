import GrammarShapes.Proofs.Tree.Numbering

set_option autoImplicit false

/-! # The walk below a node

A walk in a tree yields the nodes below the one on which it starts, in document order and each with its
level. The invariant is what remains to be yielded: the nodes below the current one and then, level by
level outwards, the later siblings with all that is below them. A step of the walk takes the first of what
remains, and where nothing remains it climbs back to its start.
-/

namespace GrammarShapes

namespace SyntaxTree

/-- `Below s d u`: the subtree `u` lies `d` edges below `s`. -/
inductive Below : SyntaxTree → Nat → SyntaxTree → Prop where
  | refl (s : SyntaxTree) : Below s 0 s
  | child {s c u : SyntaxTree} {d : Nat} (hc : c ∈ s.children) (hBelow : Below c d u) : Below s (d + 1) u

mutual

/-- The nodes below a tree in document order, each with its level, if the tree lies at the given one. -/
def descendants (level : Nat) : SyntaxTree → List (Node × Nat)
  | .node _ ts => descendantsOfAll level ts

def descendantsOfAll (level : Nat) : List SyntaxTree → List (Node × Nat)
  | [] => []
  | t :: ts => (t.root, level + 1) :: (descendants (level + 1) t ++ descendantsOfAll level ts)

end

theorem descendants_eq (level : Nat) (t : SyntaxTree) :
    t.descendants level = descendantsOfAll level t.children := by
  cases t
  rw [descendants, children]

theorem descendantsOfAll_eq_flatMap (level : Nat) (ts : List SyntaxTree) :
    descendantsOfAll level ts = ts.flatMap fun t => (t.root, level + 1) :: t.descendants (level + 1) := by
  induction ts with
  | nil => rfl
  | cons t ts ih => rw [descendantsOfAll, ih, List.flatMap_cons, List.cons_append]

theorem map_fst_descendants (level : Nat) (t : SyntaxTree) :
    (t.descendants level).map Prod.fst = t.nodes.tail := by
  induction t using induction generalizing level with
  | step t ih =>
    rw [descendants_eq, descendantsOfAll_eq_flatMap, nodes_eq, List.tail_cons, List.map_flatMap]
    rw [List.flatMap_def, List.flatMap_def]
    refine congrArg List.flatten (List.map_congr_left fun c hc => ?_)
    rw [List.map_cons, ih c hc, nodes_eq c]
    rfl

theorem mem_descendants_iff {level k : Nat} {n : Node} {t : SyntaxTree} :
    (n, k) ∈ t.descendants level ↔ ∃ d u, Below t (d + 1) u ∧ u.root = n ∧ k = level + d + 1 := by
  induction t using induction generalizing level with
  | step t ih =>
    rw [descendants_eq, descendantsOfAll_eq_flatMap, List.mem_flatMap]
    constructor
    · rintro ⟨c, hc, hMem⟩
      rcases List.mem_cons.mp hMem with hRoot | hMem
      · cases hRoot
        exact ⟨0, c, .child hc (.refl c), rfl, rfl⟩
      · obtain ⟨d, u, hBelow, hRoot, hLevel⟩ := (ih c hc).mp hMem
        exact ⟨d + 1, u, .child hc hBelow, hRoot, by omega⟩
    · rintro ⟨d, u, hBelow, rfl, rfl⟩
      cases hBelow with
      | @child _ c _ _ hc hBelow =>
        refine ⟨c, hc, ?_⟩
        cases hBelow with
        | refl => exact List.mem_cons_self
        | @child _ c' _ d hc' hBelow' =>
          apply List.mem_cons_of_mem
          exact (ih c hc).mpr ⟨d, u, .child hc' hBelow', rfl, by omega⟩

end SyntaxTree

namespace TreeCursor

open SyntaxTree

def outermost (current : SyntaxTree) : List Level → SyntaxTree
  | [] => current
  | level :: above => outermost level.tree above

def start (c : TreeCursor) : SyntaxTree :=
  outermost c.current c.above

/-- The later siblings at each level, innermost first, and the nodes below them. -/
def pending : List Level → List (Node × Nat)
  | [] => []
  | level :: above => descendantsOfAll above.length level.later ++ pending above

def remaining (c : TreeCursor) : List (Node × Nat) :=
  c.current.descendants c.depth ++ pending c.above

/-- `Arrives start nodes outcome`: the search for the first of the nodes that remain ends on it, or on the
start if none remains. -/
inductive Arrives (start : SyntaxTree) :
    List (Node × Nat) → Except Empty Bool × Walk TreeCursor → Prop where
  | finished : Arrives start [] (.ok false, ⟨.ofTree start, 0, true⟩)
  | found (c : TreeCursor) (hStart : c.start = start) :
      Arrives start ((c.node, c.depth) :: c.remaining) (.ok true, ⟨c, c.depth, false⟩)

theorem arrives_climb (current : SyntaxTree) (above : List Level) :
    Arrives (outermost current above) (pending above)
      (Walk.climb cursor.trust above.length ⟨current, above⟩) := by
  induction above generalizing current with
  | nil => exact .finished
  | cons level above ih =>
    obtain ⟨tree, later⟩ := level
    cases later with
    | nil => exact ih tree
    | cons t later =>
      have hFound := Arrives.found ⟨t, ⟨tree, later⟩ :: above⟩ rfl
      have hRemaining : pending (⟨tree, t :: later⟩ :: above) =
          (t.root, above.length + 1) :: remaining ⟨t, ⟨tree, later⟩ :: above⟩ := by
        simp [pending, remaining, descendantsOfAll, depth]
      rw [hRemaining]
      exact hFound

theorem arrives_advance (c : TreeCursor) :
    Arrives c.start c.remaining (Walk.advance cursor.trust ⟨c, c.depth, false⟩) := by
  obtain ⟨current, above⟩ := c
  obtain ⟨root, ts⟩ := current
  cases ts with
  | nil => exact arrives_climb (.node root []) above
  | cons t later =>
    have hFound := Arrives.found ⟨t, ⟨.node root (t :: later), later⟩ :: above⟩ rfl
    have hRemaining : remaining ⟨.node root (t :: later), above⟩ =
        (t.root, above.length + 1) :: remaining ⟨t, ⟨.node root (t :: later), later⟩ :: above⟩ := by
      simp [remaining, pending, descendants, descendantsOfAll, depth]
    rw [hRemaining]
    exact hFound

theorem take_next_eq {bound : Nat} {c : TreeCursor} (h : c.remaining.length < bound) :
    Walk.take (Walk.next cursor) bound ⟨c, c.depth, false⟩ =
      (c.remaining, ⟨.ofTree c.start, 0, true⟩) := by
  induction bound generalizing c with
  | zero => omega
  | succ bound ih =>
    have hArrives := arrives_advance c
    rw [Walk.take, Walk.next]
    generalize Walk.advance cursor.trust ⟨c, c.depth, false⟩ = outcome at hArrives
    generalize c.remaining = nodes at hArrives h
    generalize c.start = tree at hArrives
    cases hArrives with
    | finished => rfl
    | found c' hStart =>
      have hRest := ih (by simpa using h : c'.remaining.length < bound)
      simp only [hRest, hStart]
      rfl

theorem remaining_ofTree (s : SyntaxTree) : (ofTree s).remaining = s.descendants 0 :=
  List.append_nil _

theorem length_remaining_ofTree (s : SyntaxTree) : (ofTree s).remaining.length < s.size := by
  have hPos := s.size_pos
  have hLength : (s.descendants 0).length = s.size - 1 := by
    rw [← List.length_map Prod.fst, map_fst_descendants, List.length_tail, length_nodes]
  rw [remaining_ofTree, hLength]
  omega

theorem take_next_ofTree {bound : Nat} {s : SyntaxTree} (h : s.size ≤ bound) :
    Walk.take (Walk.next cursor) bound ⟨.ofTree s, 0, false⟩ =
      (s.descendants 0, ⟨.ofTree s, 0, true⟩) := by
  rw [← remaining_ofTree]
  exact take_next_eq (Nat.lt_of_lt_of_le (length_remaining_ofTree s) h)

/-- In a tree that was built from steps the nodes are numbered in document order. The walk below a node
yields the nodes of the next numbers, as many as there are below it, each with the number of edges to it;
then it is back on the node and yields nothing more. -/
theorem walk_of_ofSteps {steps : List BuildStep} {t : SyntaxTree} (h : SyntaxTree.ofSteps steps = .ok t) :
    t.nodes.map Node.id = List.range t.size ∧
    ∀ s ∈ t.subtrees,
      t.cursorAt? s.root.id = some (.ofTree s) ∧
      (∀ bound, s.size ≤ bound → Walk.take (Walk.next cursor) bound ⟨.ofTree s, 0, false⟩ =
        (s.descendants 0, ⟨.ofTree s, 0, true⟩)) ∧
      (s.descendants 0).map Prod.fst = s.nodes.tail ∧
      (s.descendants 0).map (·.1.id) = List.range' (s.root.id + 1) (s.size - 1) ∧
      (∀ n d, (n, d) ∈ s.descendants 0 ↔ 0 < d ∧ ∃ u, Below s d u ∧ u.root = n) ∧
      Walk.next cursor ⟨.ofTree s, 0, true⟩ = (none, ⟨.ofTree s, 0, true⟩) := by
  have hNumbered := SyntaxTree.numbered_of_ofSteps h
  refine ⟨hNumbered, fun s hs => ?_⟩
  have hIds : (s.descendants 0).map (·.1.id) = List.range' (s.root.id + 1) (s.size - 1) := by
    obtain ⟨-, -, -, -, hOwn⟩ := hNumbered.exists_append hs
    have hTail : (s.nodes.map Node.id).tail = (s.descendants 0).map (·.1.id) := by
      rw [← List.map_tail, ← map_fst_descendants 0, List.map_map]
      rfl
    rw [← hTail, hOwn, List.tail_range']
  refine ⟨hNumbered.cursorAt?_root_id hs, fun _ => take_next_ofTree, map_fst_descendants 0 s, hIds,
    ?_, rfl⟩
  intro n d
  rw [mem_descendants_iff]
  constructor
  · rintro ⟨d, u, hBelow, hRoot, rfl⟩
    rw [Nat.zero_add]
    exact ⟨Nat.succ_pos d, u, hBelow, hRoot⟩
  · rintro ⟨hPos, u, hBelow, hRoot⟩
    cases d with
    | zero => omega
    | succ d => exact ⟨d, u, hBelow, hRoot, by omega⟩

def nestedSteps : List BuildStep :=
  [.start "list" {}, .token "a" {}, .start "list" {}, .token "b" {}, .finish, .token "c" {}, .finish]

def innerTree : SyntaxTree :=
  .node ⟨2, "list", {}⟩ [.leaf ⟨3, "b", {}⟩]

def nestedTree : SyntaxTree :=
  .node ⟨0, "list", {}⟩ [.leaf ⟨1, "a", {}⟩, innerTree, .leaf ⟨4, "c", {}⟩]

theorem walk_nestedTree :
    Walk.take (Walk.next cursor) 5 ⟨.ofTree nestedTree, 0, false⟩ =
      ([(⟨1, "a", {}⟩, 1), (⟨2, "list", {}⟩, 1), (⟨3, "b", {}⟩, 2), (⟨4, "c", {}⟩, 1)],
        ⟨.ofTree nestedTree, 0, true⟩) ∧
    nestedTree.cursorAt? 2 = some (.ofTree innerTree) ∧
    Walk.take (Walk.next cursor) 2 ⟨.ofTree innerTree, 0, false⟩ =
      ([(⟨3, "b", {}⟩, 1)], ⟨.ofTree innerTree, 0, true⟩) := by
  have hBuilt : SyntaxTree.ofSteps nestedSteps = .ok nestedTree := rfl
  have hInner : innerTree ∈ nestedTree.subtrees := .tail _ (.tail _ (.head _))
  obtain ⟨-, hWalk⟩ := walk_of_ofSteps hBuilt
  obtain ⟨-, hTake, -⟩ := hWalk nestedTree (mem_subtrees_self nestedTree)
  obtain ⟨hCursor, hTakeInner, -⟩ := hWalk innerTree hInner
  exact ⟨hTake 5 (by decide), hCursor, hTakeInner 2 (by decide)⟩

end TreeCursor

end GrammarShapes
