import GrammarShapes.Proofs.Cursor.Folding
import GrammarShapes.Proofs.Tree.Moves

set_option autoImplicit false

/-! # Visits in trees

A visitor is led below a node of a built tree over the nodes that lie there, in document order, as far as
the first at which it gives a value. Then the cursor is on that node, and otherwise back on its start.
-/

namespace GrammarShapes

namespace TreeCursor

open SyntaxTree Visitor

variable {β τ : Type} {s t : SyntaxTree}

theorem visits_ofTree (visitor : Node → τ → Option β × τ) {bound : Nat} (start : τ) (h : s.size ≤ bound) :
    Visits cursor visitor s.nodes.tail (.ofTree s) start
      (Walk.visit (Walk.next cursor) visitor bound ⟨.ofTree s, 0, false⟩ start) := by
  have hTake := take_next_ofTree h
  have hEnough : (s.descendants 0).length < bound := by
    rw [← remaining_ofTree]
    exact Nat.lt_of_lt_of_le (length_remaining_ofTree s) h
  have hVisits := Walk.visits_visit visitor (w := ⟨ofTree s, 0, false⟩) start (by rw [hTake]; exact hEnough)
  rwa [hTake, map_fst_descendants] at hVisits

theorem passes_counting (visitor : Node → τ → τ) (nodes : List Node) (counted : Nat × τ) :
    Passes (Cursor.counting visitor) nodes counted ∧
      stateAfter (Cursor.counting visitor) nodes counted =
        (counted.1 + nodes.length, nodes.foldl (fun t n => visitor n t) counted.2) := by
  induction nodes generalizing counted with
  | nil => exact ⟨trivial, rfl⟩
  | cons n nodes ih =>
    obtain ⟨hPasses, hState⟩ := ih (counted.1 + 1, visitor n counted.2)
    refine ⟨⟨rfl, hPasses⟩, hState.trans ?_⟩
    rw [List.length_cons, Nat.add_assoc, Nat.add_comm 1]
    rfl

theorem walkAll_ofTree (visitor : Node → τ → τ) {bound : Nat} (start : τ) (h : s.size ≤ bound) :
    cursor.walkAll visitor bound (.ofTree s) start =
      ⟨.complete, (s.nodes.tail.length, s.nodes.tail.foldl (fun t n => visitor n t) start), .ofTree s,
        [.walkCounted s.nodes.tail.length]⟩ := by
  obtain ⟨-, hState⟩ := passes_counting visitor s.nodes.tail (0, start)
  have hVisits := visits_ofTree (Cursor.counting visitor) (0, start) h
  rw [Cursor.walkAll]
  generalize Walk.visit (Walk.next cursor) (Cursor.counting visitor) bound ⟨.ofTree s, 0, false⟩ (0, start) = v
    at hVisits
  cases hVisits with
  | @ended _ _ value => cases value
  | complete => simp only [hState, Nat.zero_add]

/-- In a built tree a walk below a node is the left fold of the visitor, as far as it gives a value, over
the nodes below the start in document order. The visitor is called on the first of them that makes it give
a value and on all before, or on all of them if none does. In the one case the walk ends with that value and
the cursor is on that node; in the other it is back on its start, and only then is it recorded that the walk
has finished. A visitor that has no wish to stop is called on all of them, and they are counted. -/
theorem visits_of_ofSteps {steps : List BuildStep} (h : SyntaxTree.ofSteps steps = .ok t)
    (hs : s ∈ t.subtrees) :
    t.cursorAt? s.root.id = some (.ofTree s) ∧
    (∀ (β τ : Type) (visitor : Node → τ → Option β × τ) (bound : Nat) (start : τ), s.size ≤ bound →
      let v := cursor.walk (collecting visitor) bound (.ofTree s) ([], start)
      cursor.walk visitor bound (.ofTree s) start = { v with visitor := v.visitor.2 } ∧
      foldUntil visitor s.nodes.tail start = (v.outcome.value?, v.visitor.2) ∧
      ((∃ before n after value, s.nodes.tail = before ++ n :: after ∧ Passes visitor before start ∧
          (visitor n (stateAfter visitor before start)).1 = some value ∧ v.outcome = .ended value ∧
          v.visitor.1 = before ++ [n] ∧ v.cursor.node = n ∧ t.find? n.id = some v.cursor.current ∧
          v.events = [.walkStarted]) ∨
        (Passes visitor s.nodes.tail start ∧ v.outcome = .complete ∧ v.visitor.1 = s.nodes.tail ∧
          v.cursor = .ofTree s ∧ v.events = [.walkStarted, .walkFinished]))) ∧
    ∀ (τ : Type) (visitor : Node → τ → τ) (bound : Nat) (start : τ), s.size ≤ bound →
      cursor.walkAll visitor bound (.ofTree s) start =
        ⟨.complete, (s.nodes.tail.length, s.nodes.tail.foldl (fun t n => visitor n t) start), .ofTree s,
          [.walkCounted s.nodes.tail.length]⟩ := by
  have hNumbered := SyntaxTree.numbered_of_ofSteps h
  refine ⟨hNumbered.cursorAt?_root_id hs, fun β τ visitor bound start hBound => ?_,
    fun τ visitor bound start => walkAll_ofTree visitor start⟩
  have hPlain := visits_ofTree visitor start hBound
  rw [Walk.visit_collecting (Walk.next cursor) visitor bound _ [] start] at hPlain
  have hFold := hPlain.foldUntil_eq
  have hVisits := visits_ofTree (collecting visitor) ([], start) hBound
  -- the cursor never leaves the subtree, so the node on which it stops is found in the tree
  have hChain := Walk.of_visit (c := cursor) (P := fun c => Chain s c.current c.above)
    (fun m _ hChain => hChain.move m) (collecting visitor) bound (w := ⟨ofTree s, 0, false⟩) .start ([], start)
  refine ⟨cursor.walk_collecting visitor bound _ start, ?_⟩
  rw [Cursor.walk]
  generalize Walk.visit (Walk.next cursor) (collecting visitor) bound ⟨.ofTree s, 0, false⟩ ([], start) = v
    at hFold hVisits hChain
  cases hVisits with
  | @ended before after value _ c hItems hBefore hValue =>
    rw [stateAfter_collecting, List.nil_append] at hValue
    obtain ⟨hEnds, rfl⟩ := Prod.mk.inj hValue
    have hFound := hNumbered.find?_root_id ((infix_subtrees hs).mem hChain.mem_subtrees)
    exact ⟨hFold, .inl ⟨before, cursor.node c, after, value, hItems, passes_collecting_iff.mp hBefore, hEnds,
      rfl, rfl, rfl, hFound, rfl⟩⟩
  | complete hAll =>
    rw [stateAfter_collecting, List.nil_append] at hFold ⊢
    exact ⟨hFold, .inr ⟨passes_collecting_iff.mp hAll, rfl, rfl, rfl, rfl⟩⟩

def stopping (n : Node) (calls : Nat) : Option Nat × Nat :=
  (if n.kind = "b" then some n.id else none, calls + 1)

theorem visits_nestedTree :
    (∃ v, cursor.walk stopping 5 (.ofTree nestedTree) 0 = v ∧ v.outcome.value? = some 3 ∧ v.visitor = 3) ∧
    cursor.walkAll (fun n kinds => n.kind :: kinds) 2 (.ofTree innerTree) [] =
      ⟨.complete, (1, ["b"]), .ofTree innerTree, [.walkCounted 1]⟩ := by
  have hBuilt : SyntaxTree.ofSteps nestedSteps = .ok nestedTree := rfl
  have hInner : innerTree ∈ nestedTree.subtrees := .tail _ (.tail _ (.head _))
  obtain ⟨-, hWalk, -⟩ := visits_of_ofSteps hBuilt (mem_subtrees_self nestedTree)
  obtain ⟨-, -, hAll⟩ := visits_of_ofSteps hBuilt hInner
  obtain ⟨hSame, hFold, -⟩ := hWalk Nat Nat stopping 5 0 (by decide)
  have hStops : foldUntil stopping nestedTree.nodes.tail 0 = (some 3, 3) := rfl
  rw [hStops] at hFold
  obtain ⟨hValue, hCalls⟩ := Prod.mk.inj hFold
  exact ⟨⟨_, hSame, hValue.symm, hCalls.symm⟩, hAll (List String) _ 2 [] (by decide)⟩

end TreeCursor

end GrammarShapes
