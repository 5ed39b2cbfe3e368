import GrammarShapes.Proofs.Cursor.Attempts
import GrammarShapes.Proofs.Tree.Descendants

set_option autoImplicit false

/-! # The tour of a walk

A walk below a node of a tree attempts its moves in one order, its tour: on every node the first child, and
then, behind each of the children, the next sibling, and behind the last of them the parent. The invariant
is that what a walk has attempted, followed by what its cursor still has ahead, is the whole tour. So the
number of attempts is known: a child once for every node, a sibling once for every node but the first, and
a parent once for every node with children.
-/

namespace GrammarShapes

namespace SyntaxTree

mutual

/-- The moves that are attempted from the entry into a tree until everything below it is visited. -/
def tour : SyntaxTree → List Movement
  | .node _ [] => [.firstChild]
  | .node _ (t :: ts) => .firstChild :: (tour t ++ .nextSibling :: tourBeside ts)

/-- The moves that are attempted from a node's last sibling move, which leads to the first of these later
siblings if there is one, until the parent is reached. -/
def tourBeside : List SyntaxTree → List Movement
  | [] => [.parent]
  | t :: ts => tour t ++ .nextSibling :: tourBeside ts

end

def isInner (t : SyntaxTree) : Bool :=
  !t.children.isEmpty

mutual

theorem count_tour : ∀ t : SyntaxTree, t.tour.count .firstChild = t.size ∧
    t.tour.count .nextSibling + 1 = t.size ∧ t.tour.count .parent = t.subtrees.countP isInner
  | .node n [] => ⟨rfl, rfl, rfl⟩
  | .node n (t :: ts) => by
      obtain ⟨hChild, hSibling, hParent⟩ := count_tour t
      obtain ⟨hChildren, hSiblings, hParents⟩ := count_tourBeside ts
      refine ⟨?_, ?_, ?_⟩
      · simp [tour, size, sizeAll, hChild, hChildren]
      · simp only [tour, size, sizeAll, ne_eq, reduceCtorEq, not_false_eq_true, List.count_cons_of_ne,
          List.count_append, List.count_cons_self, hSiblings]
        omega
      · have hInner : isInner (.node n (t :: ts)) = true := rfl
        simp only [tour, subtrees_eq (.node n (t :: ts)), children, ne_eq, reduceCtorEq, not_false_eq_true,
          List.count_cons_of_ne, List.count_append, List.flatMap_cons, List.countP_cons_of_pos hInner,
          List.countP_append, hParent, hParents]
        omega

theorem count_tourBeside : ∀ ts : List SyntaxTree, (tourBeside ts).count .firstChild = sizeAll ts ∧
    (tourBeside ts).count .nextSibling = sizeAll ts ∧
    (tourBeside ts).count .parent = (ts.flatMap subtrees).countP isInner + 1
  | [] => ⟨rfl, rfl, rfl⟩
  | t :: ts => by
      obtain ⟨hChild, hSibling, hParent⟩ := count_tour t
      obtain ⟨hChildren, hSiblings, hParents⟩ := count_tourBeside ts
      refine ⟨?_, ?_, ?_⟩
      · simp [tourBeside, sizeAll, hChild, hChildren]
      · simp only [tourBeside, sizeAll, List.count_append, List.count_cons_self, hSiblings]
        omega
      · simp only [tourBeside, ne_eq, reduceCtorEq, not_false_eq_true, List.count_cons_of_ne, List.count_append,
          List.flatMap_cons, List.countP_append, hParent, hParents]
        omega

end

end SyntaxTree

namespace TreeCursor

open SyntaxTree

def tourAbove : List Level → List Movement
  | [] => []
  | level :: above => .nextSibling :: (tourBeside level.later ++ tourAbove above)

def ahead (c : TreeCursor) : List Movement :=
  c.current.tour ++ tourAbove c.above

def stillAhead (found : Bool) (w : Walk TreeCursor) : List Movement :=
  if found then w.cursor.ahead else []

variable {s t : SyntaxTree} {attempts : List (Movement × TreeCursor)} {found : Bool}
  {w : Walk TreeCursor}

theorem attempts_climb (current : SyntaxTree) (above : List Level)
    (h : Walk.Climbs cursor above.length ⟨current, above⟩ attempts found w) :
    attempts.map Prod.fst ++ stillAhead found w = tourAbove above := by
  induction above generalizing current attempts with
  | nil =>
    cases h
    rfl
  | cons level above ih =>
    obtain ⟨tree, later⟩ := level
    cases later with
    | nil =>
      cases h with
      | sibling hSibling => cases hSibling
      | stuck hSibling hParent =>
        cases hSibling
        cases hParent
      | parent hSibling hParent hRest =>
        cases hSibling
        cases hParent
        simp only [List.map_cons, List.cons_append, ih tree hRest, tourAbove, tourBeside, List.nil_append]
    | cons v later =>
      cases h with
      | sibling hSibling =>
        cases hSibling
        simp [stillAhead, ahead, tourAbove, tourBeside]
      | stuck hSibling _ => cases hSibling
      | parent hSibling _ _ => cases hSibling

theorem attempts_step (c : TreeCursor) (h : Walk.Steps cursor ⟨c, c.depth, false⟩ attempts found w) :
    attempts.map Prod.fst ++ stillAhead found w = c.ahead := by
  obtain ⟨current, above⟩ := c
  obtain ⟨root, ts⟩ := current
  cases ts with
  | nil =>
    cases h with
    | child hChild => cases hChild
    | climb hChild hClimb =>
      cases hChild
      simp only [List.map_cons, List.cons_append, attempts_climb _ above hClimb, ahead, tour,
        List.nil_append]
  | cons v later =>
    cases h with
    | child hChild =>
      cases hChild
      simp [stillAhead, ahead, tour, tourAbove]
    | climb hChild _ => cases hChild

/-- `Touring s n moves w`: after `n` calls a walk below `s` has attempted these moves and is at `w`. -/
inductive Touring (s : SyntaxTree) (n : Nat) : List Movement → Walk TreeCursor → Prop where
  | underway {moves : List Movement} (c : TreeCursor) (hStart : c.start = s)
      (hTour : moves ++ c.ahead = s.tour) (hCount : n + c.remaining.length = (s.descendants 0).length) :
      Touring s n moves ⟨c, c.depth, false⟩
  | complete (hCount : (s.descendants 0).length < n) : Touring s n s.tour ⟨.ofTree s, 0, true⟩

theorem touring_walked (s : SyntaxTree) (n : Nat) :
    Touring s n ((cursor.attempts (.ofTree s) n).map Prod.fst) (cursor.walked (.ofTree s) n) := by
  induction n with
  | zero =>
    exact .underway (.ofTree s) rfl (List.append_nil _) (by rw [remaining_ofTree, Nat.zero_add])
  | succ n ih =>
    obtain ⟨new, found, hSteps, hAttempts⟩ := cursor.attempts_succ (.ofTree s) n
    rw [hAttempts, List.map_append]
    generalize (cursor.attempts (.ofTree s) n).map Prod.fst = moves at ih
    generalize cursor.walked (.ofTree s) n = w at ih hSteps
    generalize cursor.walked (.ofTree s) (n + 1) = w' at hSteps
    cases ih with
    | complete hCount =>
      cases hSteps
      rw [List.map_nil, List.append_nil]
      exact .complete (Nat.lt_succ_of_lt hCount)
    | underway c hStart hTour hCount =>
      -- the step attempts what was ahead of the cursor up to what is ahead of it now
      have hStep := attempts_step c hSteps
      have hArrives := arrives_advance c
      rw [hSteps.trust_eq] at hArrives
      generalize c.remaining = nodes at hArrives hCount
      rw [hStart] at hArrives
      cases hArrives with
      | finished =>
        rw [stillAhead, if_neg Bool.false_ne_true, List.append_nil] at hStep
        rw [hStep, hTour]
        rw [List.length_nil] at hCount
        exact .complete (by omega)
      | found c' hStart' =>
        rw [stillAhead, if_pos rfl] at hStep
        rw [List.length_cons] at hCount
        refine .underway c' hStart' ?_ (by omega)
        rw [List.append_assoc, hStep, hTour]

theorem Touring.next_eq_none_iff {n : Nat} {moves : List Movement} (h : Touring s n moves w) :
    (Walk.next cursor w).1 = none ↔ (s.descendants 0).length ≤ n := by
  cases h with
  | complete hCount => exact ⟨fun _ => Nat.le_of_lt hCount, fun _ => rfl⟩
  | underway c hStart hTour hCount =>
    have hArrives := arrives_advance c
    rw [Walk.next]
    generalize Walk.advance cursor.trust ⟨c, c.depth, false⟩ = outcome at hArrives
    generalize c.remaining = nodes at hArrives hCount
    cases hArrives with
    | finished => exact ⟨fun _ => Nat.le_of_eq hCount.symm, fun _ => rfl⟩
    | found c' _ =>
      simp only [List.length_cons] at hCount
      exact ⟨fun hNone => (by cases hNone), fun hLe => (by omega)⟩

theorem Touring.eq_tour {n : Nat} {moves : List Movement} (h : Touring s n moves w)
    (hCount : (s.descendants 0).length < n) : moves = s.tour := by
  cases h with
  | complete => rfl
  | underway c _ _ hUnderway => omega

/-- The walk below a node of a built tree gives nothing from the call on that follows the last of its
descendants. By then it has attempted a move to the first child once for the node and for each descendant,
a move to the next sibling once for each descendant, and a move to the parent once for each node that has
children, the start among them. -/
theorem attempts_of_ofSteps {steps : List BuildStep} (h : SyntaxTree.ofSteps steps = .ok t)
    (hs : s ∈ t.subtrees) {n : Nat} (hn : s.nodes.tail.length = n) :
    t.cursorAt? s.root.id = some (.ofTree s) ∧
    (∀ k, (Walk.next cursor (cursor.walked (.ofTree s) k)).1 = none ↔ n ≤ k) ∧
    ∀ k, n < k →
      ((cursor.attempts (.ofTree s) k).map Prod.fst).count .firstChild = n + 1 ∧
      ((cursor.attempts (.ofTree s) k).map Prod.fst).count .nextSibling = n ∧
      ((cursor.attempts (.ofTree s) k).map Prod.fst).count .parent = s.subtrees.countP isInner := by
  have hNumbered := SyntaxTree.numbered_of_ofSteps h
  have hLength : (s.descendants 0).length = n := by
    rw [← hn, ← map_fst_descendants 0, List.length_map]
  refine ⟨hNumbered.cursorAt?_root_id hs, fun k => ?_, fun k hk => ?_⟩
  · rw [(touring_walked s k).next_eq_none_iff, hLength]
  · rw [(touring_walked s k).eq_tour (hLength ▸ hk)]
    obtain ⟨hChild, hSibling, hParent⟩ := s.count_tour
    have hSize : n + 1 = s.size := by
      rw [← hn, List.length_tail, length_nodes]
      have hPos := s.size_pos
      omega
    exact ⟨hChild.trans hSize.symm, by omega, hParent⟩

/-- Four nodes below the root, two of the five with children. -/
theorem attempts_nestedTree :
    ((cursor.attempts (.ofTree nestedTree) 5).map Prod.fst).count .firstChild = 5 ∧
    ((cursor.attempts (.ofTree nestedTree) 5).map Prod.fst).count .nextSibling = 4 ∧
    ((cursor.attempts (.ofTree nestedTree) 5).map Prod.fst).count .parent = 2 := by
  have hBuilt : SyntaxTree.ofSteps nestedSteps = .ok nestedTree := rfl
  obtain ⟨-, -, hCounts⟩ := attempts_of_ofSteps hBuilt (mem_subtrees_self nestedTree) rfl
  exact hCounts 5 (by decide)

end TreeCursor

end GrammarShapes
