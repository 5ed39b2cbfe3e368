import GrammarShapes.Proofs.Tree.Descendants
import GrammarShapes.Proofs.Tree.Links

set_option autoImplicit false

/-! # The moves of a cursor in a tree

However a cursor moves, the levels above its node are the way down from its start. Where a node has one
number and one parent this determines where each move leads: to the first child, to the next child of the
parent, to the parent. A move that leads nowhere fails and leaves the cursor as it is.
-/

namespace GrammarShapes

namespace SyntaxTree

variable {s t u v : SyntaxTree} {d e : Nat}

theorem below_succ_iff : Below s (d + 1) u ↔ ∃ p, Below s d p ∧ u ∈ p.children := by
  constructor
  · intro h
    induction d generalizing s with
    | zero =>
      cases h with
      | child hc hBelow =>
        cases hBelow
        exact ⟨s, .refl s, hc⟩
    | succ d ih =>
      cases h with
      | child hc hBelow =>
        obtain ⟨p, hp, hu⟩ := ih hBelow
        exact ⟨p, .child hc hp, hu⟩
  · rintro ⟨p, hp, hu⟩
    induction hp with
    | refl p => exact .child hu (.refl u)
    | child hc _ ih => exact .child hc (ih hu)

theorem Below.mem_subtrees (h : Below s d u) : u ∈ s.subtrees := by
  induction h with
  | refl s => exact mem_subtrees_self s
  | child hc _ ih => exact (infix_subtrees_of_mem_children hc).mem ih

namespace Numbered

theorem not_mem_children_of_mem_subtrees (h : t.Numbered) (hs : s ∈ t.subtrees) (hu : u ∈ s.subtrees) :
    s ∉ u.children := by
  intro hChild
  have hLe := h.le_of_mem_subtrees hs hu
  have hLt := h.lt_of_mem_children ((infix_subtrees hs).mem hu) hChild
  omega

theorem below_unique (h : t.Numbered) (hs : s ∈ t.subtrees) (hd : Below s d u) (he : Below s e u) :
    d = e := by
  induction d generalizing e u with
  | zero =>
    cases hd
    cases e with
    | zero => rfl
    | succ e =>
      obtain ⟨p, hp, hChild⟩ := below_succ_iff.mp he
      exact absurd hChild (h.not_mem_children_of_mem_subtrees hs hp.mem_subtrees)
  | succ d ih =>
    obtain ⟨p, hp, hChild⟩ := below_succ_iff.mp hd
    cases e with
    | zero =>
      cases he
      exact absurd hChild (h.not_mem_children_of_mem_subtrees hs hp.mem_subtrees)
    | succ e =>
      obtain ⟨q, hq, hOther⟩ := below_succ_iff.mp he
      obtain rfl : p = q := h.eq_of_mem_children ((infix_subtrees hs).mem hp.mem_subtrees)
        ((infix_subtrees hs).mem hq.mem_subtrees) hChild hOther
      rw [ih hp hq]

end Numbered

/-- `Leads s m u v`: among the nodes from `s` downwards the movement leads from `u` to `v`. -/
inductive Leads (s : SyntaxTree) : Movement → SyntaxTree → SyntaxTree → Prop where
  | firstChild {u v : SyntaxTree} {rest : List SyntaxTree} (hChildren : u.children = v :: rest) :
      Leads s .firstChild u v
  | nextSibling {p u v : SyntaxTree} {before after : List SyntaxTree} (hp : p ∈ s.subtrees)
      (hChildren : p.children = before ++ u :: v :: after) : Leads s .nextSibling u v
  | parent {p u : SyntaxTree} (hp : p ∈ s.subtrees) (hu : u ∈ p.children) : Leads s .parent u p

theorem Leads.root_id_ne {m : Movement} (h : Leads s m u v) (hNumbered : t.Numbered)
    (hs : s ∈ t.subtrees) (hu : u ∈ t.subtrees) : v.root.id ≠ u.root.id := by
  cases h with
  | firstChild hChildren =>
    have hLt := hNumbered.lt_of_mem_children hu (hChildren ▸ List.mem_cons_self)
    omega
  | nextSibling hp hChildren =>
    have hSorted := hNumbered.pairwise_lt_children ((infix_subtrees hs).mem hp)
    rw [hChildren, List.map_append, List.map_cons, List.map_cons] at hSorted
    have hLt := List.rel_of_pairwise_cons (List.pairwise_append.mp hSorted).2.1 List.mem_cons_self
    exact Nat.ne_of_gt hLt
  | parent hp hChild =>
    have hLt := hNumbered.lt_of_mem_children ((infix_subtrees hs).mem hp) hChild
    omega

end SyntaxTree

namespace TreeCursor

open SyntaxTree

def moved (c : TreeCursor) (moves : List Movement) : TreeCursor :=
  moves.foldl (fun c m => (move m c).2) c

/-- `Chain s u above`: the levels are the way from `s` down to `u`. -/
inductive Chain (s : SyntaxTree) : SyntaxTree → List Level → Prop where
  | start : Chain s s []
  | down {p u : SyntaxTree} {before later : List SyntaxTree} {above : List Level}
      (hAbove : Chain s p above) (hChildren : p.children = before ++ u :: later) :
      Chain s u (⟨p, later⟩ :: above)

variable {s t u : SyntaxTree} {above : List Level} {c : TreeCursor} {m : Movement}

theorem Chain.move (h : Chain s c.current c.above) (m : Movement) :
    Chain s (move m c).2.current (move m c).2.above := by
  obtain ⟨current, above⟩ := c
  cases m with
  | firstChild =>
    cases hChildren : current.children with
    | nil => simpa [TreeCursor.move, firstChild, hChildren] using h
    | cons v later =>
      rw [TreeCursor.move, firstChild, hChildren]
      exact .down h (hChildren.trans (List.nil_append _).symm)
  | nextSibling =>
    cases h with
    | start => exact .start
    | @down p _ before later _ hAbove hChildren =>
      cases later with
      | nil => exact .down hAbove hChildren
      | cons v later =>
        rw [List.append_cons] at hChildren
        exact .down hAbove hChildren
  | parent =>
    cases h with
    | start => exact .start
    | down hAbove _ => exact hAbove

theorem chain_moved (h : Chain s c.current c.above) (moves : List Movement) :
    Chain s (c.moved moves).current (c.moved moves).above := by
  induction moves generalizing c with
  | nil => exact h
  | cons m moves ih => exact ih (h.move m)

theorem Chain.below_length (h : Chain s u above) : Below s above.length u := by
  induction h with
  | start => exact .refl s
  | @down p u _ _ _ _ hChildren ih =>
    exact below_succ_iff.mpr ⟨p, ih, hChildren ▸ List.mem_append_cons_self⟩

theorem Chain.mem_subtrees (h : Chain s u above) : u ∈ s.subtrees :=
  h.below_length.mem_subtrees

theorem Chain.leads_iff (h : Chain s c.current c.above) (hNumbered : t.Numbered) (hs : s ∈ t.subtrees) :
    Leads s m c.current u ↔ (TreeCursor.move m c).1 = true ∧ (TreeCursor.move m c).2.current = u := by
  have hIn : ∀ {q}, q ∈ s.subtrees → q ∈ t.subtrees := fun hq => (infix_subtrees hs).mem hq
  obtain ⟨current, above⟩ := c
  constructor
  · intro hLeads
    cases hLeads with
    | firstChild hChildren =>
      rw [TreeCursor.move, firstChild, hChildren]
      exact ⟨rfl, rfl⟩
    | @nextSibling q _ _ front after hq hOther =>
      have hMem : current ∈ q.children := hOther ▸ List.mem_append_cons_self
      cases h with
      | start => exact absurd hMem (hNumbered.not_mem_children_of_mem_subtrees hs hq)
      | @down p _ before later _ hAbove hChildren =>
        -- the node has one parent and one place below it, which the cursor knows
        have hMem' : current ∈ p.children := hChildren ▸ List.mem_append_cons_self
        obtain rfl : q = p :=
          hNumbered.eq_of_mem_children (hIn hq) (hIn hAbove.mem_subtrees) hMem hMem'
        obtain ⟨-, rfl⟩ := hNumbered.append_cons_children_unique (hIn hq) hChildren hOther
        exact ⟨rfl, rfl⟩
    | parent hq hChild =>
      cases h with
      | start => exact absurd hChild (hNumbered.not_mem_children_of_mem_subtrees hs hq)
      | @down p _ _ _ _ hAbove hChildren =>
        have hMem : current ∈ p.children := hChildren ▸ List.mem_append_cons_self
        exact ⟨rfl, hNumbered.eq_of_mem_children (hIn hAbove.mem_subtrees) (hIn hq) hMem hChild⟩
  · rintro ⟨hMoved, rfl⟩
    cases m with
    | firstChild =>
      cases hChildren : current.children with
      | nil => simp [TreeCursor.move, firstChild, hChildren] at hMoved
      | cons v later =>
        simp only [TreeCursor.move, firstChild, hChildren]
        exact .firstChild hChildren
    | nextSibling =>
      cases h with
      | start => cases hMoved
      | @down p _ before later _ hAbove hChildren =>
        cases later with
        | nil => cases hMoved
        | cons v later => exact .nextSibling hAbove.mem_subtrees hChildren
    | parent =>
      cases h with
      | start => cases hMoved
      | down hAbove hChildren =>
        exact .parent hAbove.mem_subtrees (hChildren ▸ List.mem_append_cons_self)

theorem Chain.root_id_lt (hNumbered : t.Numbered) (hs : s ∈ t.subtrees) {p : SyntaxTree}
    (hAbove : Chain s p above) (hChild : u ∈ p.children) : s.root.id < u.root.id := by
  have hLe := hNumbered.le_of_mem_subtrees hs hAbove.mem_subtrees
  have hLt := hNumbered.lt_of_mem_children ((infix_subtrees hs).mem hAbove.mem_subtrees) hChild
  omega

theorem firstChild_succeeds_iff : (firstChild c).1 = true ↔ c.current.children ≠ [] := by
  cases hChildren : c.current.children <;> simp [firstChild, hChildren]

theorem Chain.parent_succeeds_iff (h : Chain s c.current c.above) (hNumbered : t.Numbered)
    (hs : s ∈ t.subtrees) : (parent c).1 = true ↔ c.node.id ≠ s.root.id := by
  obtain ⟨current, above⟩ := c
  cases h with
  | start => exact ⟨fun hMoved => (by cases hMoved), fun hNe => absurd rfl hNe⟩
  | down hAbove hChildren =>
    have hLt := hAbove.root_id_lt hNumbered hs (hChildren ▸ List.mem_append_cons_self)
    exact ⟨fun _ => Nat.ne_of_gt hLt, fun _ => rfl⟩

theorem Chain.nextSibling_succeeds_iff (h : Chain s c.current c.above) (hNumbered : t.Numbered)
    (hs : s ∈ t.subtrees) :
    (nextSibling c).1 = true ↔ c.node.id ≠ s.root.id ∧
      ∀ p ∈ s.subtrees, c.current ∈ p.children → p.children.getLast? ≠ some c.current := by
  obtain ⟨current, above⟩ := c
  cases h with
  | start => exact ⟨fun hMoved => (by cases hMoved), fun hNe => absurd rfl hNe.1⟩
  | @down p _ before later above hAbove hChildren =>
    have hp := (infix_subtrees hs).mem hAbove.mem_subtrees
    have hMem : current ∈ p.children := hChildren ▸ List.mem_append_cons_self
    cases later with
    | nil =>
      refine ⟨fun hMoved => (by cases hMoved), fun hNotLast => ?_⟩
      refine absurd ?_ (hNotLast.2 p hAbove.mem_subtrees hMem)
      rw [hChildren]
      exact List.getLast?_concat
    | cons v later =>
      refine ⟨fun _ => ⟨Nat.ne_of_gt (hAbove.root_id_lt hNumbered hs hMem), fun q hq hOther hLast => ?_⟩,
        fun _ => rfl⟩
      obtain rfl : p = q := hNumbered.eq_of_mem_children hp ((infix_subtrees hs).mem hq) hMem hOther
      obtain ⟨front, hFront⟩ := List.getLast?_eq_some_iff.mp hLast
      obtain ⟨-, hNone⟩ := hNumbered.append_cons_children_unique hp hChildren hFront
      cases hNone

theorem move_of_failed (h : (move m c).1 = false) : (move m c).2 = c := by
  obtain ⟨current, above⟩ := c
  cases m with
  | firstChild =>
    cases hChildren : current.children with
    | nil => simp [move, firstChild, hChildren]
    | cons v later => simp [move, firstChild, hChildren] at h
  | nextSibling =>
    match above, h with
    | [], _ | ⟨p, []⟩ :: _, _ => rfl
  | parent =>
    cases above with
    | nil => rfl
    | cons level above => cases h

theorem parent_firstChild (h : (firstChild c).1 = true) : parent (firstChild c).2 = (true, c) := by
  cases hChildren : c.current.children with
  | nil => simp [firstChild, hChildren] at h
  | cons v later => simp [firstChild, parent, hChildren]

theorem parent_nextSibling (c : TreeCursor) : parent (nextSibling c).2 = parent c := by
  obtain ⟨current, above⟩ := c
  match above with
  | [] | ⟨p, []⟩ :: _ | ⟨p, v :: later⟩ :: _ => rfl

/-- A cursor on a node of a built tree stays at or below this node and knows how many edges lie between.
Each move succeeds exactly if there is a node where it leads, and goes there; a failed move changes nothing,
a successful one changes the node. Moving to the parent takes back a move to the first child and makes a
move to a sibling of no account. -/
theorem moves_of_ofSteps {steps : List BuildStep} (h : SyntaxTree.ofSteps steps = .ok t)
    (hs : s ∈ t.subtrees) (moves : List Movement) (hMoved : (ofTree s).moved moves = c) :
    t.cursorAt? s.root.id = some (.ofTree s) ∧
    (∀ d, Below s d c.current ↔ d = c.depth) ∧
    ((firstChild c).1 = true ↔ c.current.children ≠ []) ∧
    ((nextSibling c).1 = true ↔ c.node.id ≠ s.root.id ∧
      ∀ p ∈ s.subtrees, c.current ∈ p.children → p.children.getLast? ≠ some c.current) ∧
    ((parent c).1 = true ↔ c.node.id ≠ s.root.id) ∧
    (∀ m u, Leads s m c.current u ↔ (move m c).1 = true ∧ (move m c).2.current = u) ∧
    (∀ m, (move m c).1 = false → (move m c).2 = c) ∧
    (∀ m, (move m c).1 = true → (move m c).2.node.id ≠ c.node.id) ∧
    ((firstChild c).1 = true → parent (firstChild c).2 = (true, c)) ∧
    parent (nextSibling c).2 = parent c := by
  have hNumbered := SyntaxTree.numbered_of_ofSteps h
  have hChain : Chain s c.current c.above := hMoved ▸ chain_moved (c := .ofTree s) .start moves
  refine ⟨hNumbered.cursorAt?_root_id hs, fun d => ⟨fun hBelow => ?_, fun hDepth => ?_⟩,
    firstChild_succeeds_iff, hChain.nextSibling_succeeds_iff hNumbered hs,
    hChain.parent_succeeds_iff hNumbered hs, fun m u => hChain.leads_iff hNumbered hs,
    fun m => move_of_failed, fun m hSucceeded => ?_, parent_firstChild, parent_nextSibling c⟩
  · exact hNumbered.below_unique hs hBelow hChain.below_length
  · exact hDepth ▸ hChain.below_length
  · have hLeads := (hChain.leads_iff hNumbered hs).mpr ⟨hSucceeded, rfl⟩
    exact hLeads.root_id_ne hNumbered hs ((infix_subtrees hs).mem hChain.mem_subtrees)

/-- Inside a tree a cursor goes up to its start and no further. -/
theorem moves_innerTree :
    (∀ d, Below innerTree d (.leaf ⟨3, "b", {}⟩) ↔ d = 1) ∧
    (move .nextSibling ⟨.leaf ⟨3, "b", {}⟩, [⟨innerTree, []⟩]⟩).1 = false ∧
    Leads innerTree .parent (.leaf ⟨3, "b", {}⟩) innerTree := by
  have hBuilt : SyntaxTree.ofSteps nestedSteps = .ok nestedTree := rfl
  have hInner : innerTree ∈ nestedTree.subtrees := .tail _ (.tail _ (.head _))
  obtain ⟨-, hDepth, -, -, -, hLeads, -⟩ :=
    moves_of_ofSteps hBuilt hInner [.firstChild, .parent, .parent, .firstChild] rfl
  exact ⟨hDepth, rfl, (hLeads .parent innerTree).mpr ⟨rfl, rfl⟩⟩

end TreeCursor

end GrammarShapes
