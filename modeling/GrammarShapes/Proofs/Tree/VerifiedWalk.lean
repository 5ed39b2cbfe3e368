import GrammarShapes.Cursor.Table
import GrammarShapes.Proofs.Cursor.Verified
import GrammarShapes.Proofs.Tree.Moves

set_option autoImplicit false

/-! # Verified walks in trees

A cursor in a built tree keeps the contract: a failed move changes nothing, and a successful one leads to a
node with another number. So a walk that holds its moves to the contract is the plain walk. The levels above
the node where a walk starts are of no account to it, and it ends within as many steps as there are nodes
from there downwards.
-/

namespace GrammarShapes

namespace TreeCursor

open SyntaxTree

variable {β τ : Type} {s t : SyntaxTree} {c : TreeCursor}

theorem Chain.not_breaks (h : Chain s c.current c.above) (hNumbered : t.Numbered) (hs : s ∈ t.subtrees)
    (m : Movement) (v : Violation) : ¬ cursor.Breaks m c v := by
  cases v with
  | movedOnFailure =>
    rintro ⟨hResult, hSame⟩
    have hStays : (cursor.move m c).2 = c := move_of_failed hResult
    rw [hStays] at hSame
    exact absurd (beq_self_eq_true c.node.id) (Bool.eq_false_iff.mp hSame)
  | stayedOnSuccess =>
    rintro ⟨hResult, hSame⟩
    have hLeads := (h.leads_iff hNumbered hs).mpr ⟨hResult, rfl⟩
    have hNe := hLeads.root_id_ne hNumbered hs ((infix_subtrees hs).mem h.mem_subtrees)
    exact hNe (eq_of_beq hSame)

def under (base : List Level) (c : TreeCursor) : TreeCursor :=
  ⟨c.current, c.above ++ base⟩

def walkUnder (base : List Level) (w : Walk TreeCursor) : Walk TreeCursor :=
  { w with cursor := w.cursor.under base }

theorem climb_under (base : List Level) (current : SyntaxTree) (above : List Level) :
    Walk.climb cursor.trust above.length (under base ⟨current, above⟩) =
      ((Walk.climb cursor.trust above.length ⟨current, above⟩).1,
        walkUnder base (Walk.climb cursor.trust above.length ⟨current, above⟩).2) := by
  induction above generalizing current with
  | nil => rfl
  | cons level above ih =>
    obtain ⟨tree, later⟩ := level
    cases later with
    | nil => exact ih tree
    | cons v later => rfl

/-- A walk never looks at the levels above its start. -/
theorem advance_under (base : List Level) (c : TreeCursor) :
    Walk.advance cursor.trust ⟨c.under base, c.depth, false⟩ =
      ((Walk.advance cursor.trust ⟨c, c.depth, false⟩).1,
        walkUnder base (Walk.advance cursor.trust ⟨c, c.depth, false⟩).2) := by
  obtain ⟨current, above⟩ := c
  obtain ⟨root, ts⟩ := current
  cases ts with
  | nil => exact climb_under base (.node root []) above
  | cons v later => rfl

theorem visit_next_ne_unfinished (visitor : Node → τ → Option β × τ) (base : List Level) {bound : Nat}
    (h : c.remaining.length < bound) (start : τ) :
    (Walk.visit (Walk.next cursor) visitor bound ⟨c.under base, c.depth, false⟩ start).outcome ≠
      .unfinished := by
  induction bound generalizing c start with
  | zero => omega
  | succ bound ih =>
    have hArrives := arrives_advance c
    rw [Walk.visit, Walk.next, advance_under]
    generalize Walk.advance cursor.trust ⟨c, c.depth, false⟩ = outcome at hArrives
    generalize c.remaining = nodes at hArrives h
    -- each call takes one of the nodes that remain, if the visitor does not end the walk before
    cases hArrives with
    | finished => exact fun hOutcome => by cases hOutcome
    | found c' _ =>
      have hRest : c'.remaining.length < bound := by simpa using h
      simp only [walkUnder]
      rcases visitor (cursor.node (c'.under base)) start with ⟨_ | value, next⟩
      · exact ih hRest next
      · exact fun hOutcome => by cases hOutcome

theorem walk_ne_unfinished (visitor : Node → τ → Option β × τ) {bound : Nat}
    (h : c.walkBound ≤ bound) (start : τ) :
    (Walk.visit (Walk.next cursor) visitor bound ⟨c, 0, false⟩ start).outcome ≠ .unfinished :=
  visit_next_ne_unfinished (c := .ofTree c.current) visitor c.above
    (Nat.lt_of_lt_of_le (length_remaining_ofTree c.current) h) start

theorem walkVerified_of_ofSteps {steps : List BuildStep} (h : SyntaxTree.ofSteps steps = .ok t)
    (hs : s ∈ t.subtrees) (moves : List Movement) (visitor : Node → τ → Option β × τ) (bound : Nat)
    (start : τ) :
    cursor.walkVerified visitor bound ((ofTree s).moved moves) start =
      (Walk.visit (Walk.next cursor) visitor bound ⟨(ofTree s).moved moves, 0, false⟩ start).map .ok := by
  have hNumbered := SyntaxTree.numbered_of_ofSteps h
  exact Walk.visit_nextVerified (P := fun c => Chain s c.current c.above)
    (fun m _ hChain => hChain.move m) (fun m _ hChain => hChain.not_breaks hNumbered hs m) visitor bound
    (chain_moved .start moves) start

end TreeCursor

/-- Whatever a cursor does, a verified walk gives what the plain walk gives, call for call, as long as no
attempted move breaks the contract. At the first that does it tells which move broke the contract, how, and
at which node, and then it gives nothing more. A cursor in a built tree never breaks the contract: there a
visitor sees in a verified walk what it sees in the plain one, and the walk comes to its end. -/
theorem verified_walk_agrees_with_walk :
    (∀ (σ ν : Type) [SyntaxNode ν] (c : Cursor σ ν) (s : σ) (n : Nat), c.Keeps (c.attempts s n) →
      (∀ k < n, Walk.nextVerified c (c.walkedVerified s k) =
        ((Walk.next c (c.walked s k)).1.map .ok, (Walk.next c (c.walked s k)).2)) ∧
      ∀ before m x rest v, c.attempts s (n + 1) = before ++ (m, x) :: rest → c.Keeps before →
        c.Breaks m x v →
        (Walk.nextVerified c (c.walkedVerified s n)).1 = some (.error (c.violationAt m x v)) ∧
        ∀ k, n < k → (c.walkedVerified s k).cursor = (c.move m x).2 ∧
          (Walk.nextVerified c (c.walkedVerified s k)).1 = none) ∧
    ∀ steps t s, SyntaxTree.ofSteps steps = .ok t → s ∈ t.subtrees →
      ∀ (moves : List Movement) (c : TreeCursor), (TreeCursor.ofTree s).moved moves = c →
      ∀ (β τ : Type) (visitor : Node → τ → Option β × τ) (bound : Nat) (start : τ),
        let plain := TreeCursor.cursor.walk visitor bound c start
        let verified := TreeCursor.cursor.walkVerified visitor bound c start
        verified.outcome = plain.outcome.map .ok ∧ verified.visitor = plain.visitor ∧
        verified.cursor = plain.cursor ∧ (∀ v, verified.outcome ≠ .ended (.error v)) ∧
        (c.walkBound ≤ bound → verified.outcome ≠ .unfinished) := by
  refine ⟨fun σ ν _ c s n hKeeps => ⟨fun k hk => Cursor.nextVerified_of_keeps hKeeps hk,
    fun before m x rest v => Cursor.nextVerified_of_breaks hKeeps⟩, ?_⟩
  rintro steps t s h hs moves c rfl β τ visitor bound start
  obtain ⟨events, hPlain⟩ :=
    TreeCursor.cursor.walk_eq visitor bound ((TreeCursor.ofTree s).moved moves) start
  rw [hPlain, TreeCursor.walkVerified_of_ofSteps h hs moves visitor bound start]
  refine ⟨rfl, rfl, rfl, fun v hOutcome => ?_, fun hBound hOutcome => ?_⟩
  · obtain ⟨value, -, hValue⟩ := Outcome.exists_of_map_eq_ended hOutcome
    cases hValue
  · exact TreeCursor.walk_ne_unfinished visitor hBound start (Outcome.map_eq_unfinished_iff.mp hOutcome)

/-- A root whose only child has a sibling from which no move leads on, but the attempt at one leads back. -/
def driftingTable : Array CursorTable.State :=
  #[{ node := ⟨0, "root", {}⟩, firstChild := some (true, 1) },
    { node := ⟨1, "x", {}⟩, nextSibling := some (true, 2), parent := some (true, 0) },
    { node := ⟨2, "y", {}⟩, nextSibling := some (false, 1), parent := some (true, 0) }]

def drifting : Cursor Nat Node :=
  CursorTable.cursor driftingTable

theorem verified_walk_drifting :
    (Walk.nextVerified drifting (drifting.walkedVerified 0 1)).1 = some (.ok ⟨2, "y", {}⟩) ∧
    (Walk.nextVerified drifting (drifting.walkedVerified 0 2)).1 =
      some (.error ⟨.nextSibling, .movedOnFailure, "y", {}⟩) ∧
    (Walk.nextVerified drifting (drifting.walkedVerified 0 3)).1 = none ∧
    (TreeCursor.cursor.walkVerified (fun n (ids : List Nat) => ((none : Option Empty), n.id :: ids)) 2
      (.ofTree TreeCursor.innerTree) []).visitor = [3] := by
  obtain ⟨hAny, hTree⟩ := verified_walk_agrees_with_walk
  have hKeeps : drifting.Keeps (drifting.attempts 0 2) := Cursor.keeps_iff.mpr (by decide)
  have hSplit : drifting.attempts 0 3 =
      [(.firstChild, 0), (.firstChild, 1), (.nextSibling, 1), (.firstChild, 2)] ++
        (.nextSibling, 2) :: [(.parent, 1)] := rfl
  have hBefore : drifting.Keeps
      [(.firstChild, 0), (.firstChild, 1), (.nextSibling, 1), (.firstChild, 2)] :=
    Cursor.keeps_iff.mpr (by decide)
  obtain ⟨hAgrees, hBreaks⟩ := hAny Nat Node drifting 0 2 hKeeps
  obtain ⟨hError, hEnd⟩ := hBreaks _ _ _ _ .movedOnFailure hSplit hBefore ⟨rfl, rfl⟩
  have hBuilt : SyntaxTree.ofSteps TreeCursor.nestedSteps = .ok TreeCursor.nestedTree := rfl
  have hInner : TreeCursor.innerTree ∈ TreeCursor.nestedTree.subtrees := .tail _ (.tail _ (.head _))
  obtain ⟨-, hVisitor, -⟩ := hTree _ _ _ hBuilt hInner [.firstChild, .parent] _ rfl _ _
    (fun n (ids : List Nat) => ((none : Option Empty), n.id :: ids)) 2 []
  exact ⟨congrArg Prod.fst (hAgrees 1 (by decide)), hError, (hEnd 3 (by decide)).2, hVisitor⟩

end GrammarShapes
