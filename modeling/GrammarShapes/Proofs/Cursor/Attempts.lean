import GrammarShapes.Cursor.Walk

set_option autoImplicit false

/-! # The moves that a walk attempts

A step of a walk tries the first child and then climbs: the next sibling, else the parent, and again. The
relations here say which moves are attempted on the way and where it ends, whatever the cursor does. A walk
that holds its moves to the contract goes the same way as long as no attempt breaks the contract, and ends
with the violation at the first that does. The attempts of a whole walk are those that a recording cursor
has noted.
-/

namespace GrammarShapes

namespace Cursor

variable {σ ν : Type}

def recording (c : Cursor σ ν) : Cursor (σ × List (Movement × σ)) ν where
  node s := c.node s.1
  move m s := ((c.move m s.1).1, (c.move m s.1).2, s.2 ++ [(m, s.1)])

end Cursor

namespace Walk

variable {σ ν ε : Type}

/-- `Climbs c depth s attempts found w`: the search beside and above a subtree attempts these moves and
ends with `w`. -/
inductive Climbs (c : Cursor σ ν) : Nat → σ → List (Movement × σ) → Bool → Walk σ → Prop where
  | top (s : σ) : Climbs c 0 s [] false ⟨s, 0, true⟩
  | sibling {depth : Nat} {s u : σ} (hSibling : c.move .nextSibling s = (true, u)) :
      Climbs c (depth + 1) s [(.nextSibling, s)] true ⟨u, depth + 1, false⟩
  | stuck {depth : Nat} {s u p : σ} (hSibling : c.move .nextSibling s = (false, u))
      (hParent : c.move .parent u = (false, p)) :
      Climbs c (depth + 1) s [(.nextSibling, s), (.parent, u)] false ⟨p, depth + 1, true⟩
  | parent {depth : Nat} {s u p : σ} {attempts : List (Movement × σ)} {found : Bool} {w : Walk σ}
      (hSibling : c.move .nextSibling s = (false, u)) (hParent : c.move .parent u = (true, p))
      (hRest : Climbs c depth p attempts found w) :
      Climbs c (depth + 1) s ((.nextSibling, s) :: (.parent, u) :: attempts) found w

/-- `Steps c w attempts found w'`: the step of a walk to its next node attempts these moves and ends with
`w'`. -/
inductive Steps (c : Cursor σ ν) : Walk σ → List (Movement × σ) → Bool → Walk σ → Prop where
  | finished (s : σ) (depth : Nat) : Steps c ⟨s, depth, true⟩ [] false ⟨s, depth, true⟩
  | child {depth : Nat} {s u : σ} (hChild : c.move .firstChild s = (true, u)) :
      Steps c ⟨s, depth, false⟩ [(.firstChild, s)] true ⟨u, depth + 1, false⟩
  | climb {depth : Nat} {s u : σ} {attempts : List (Movement × σ)} {found : Bool} {w : Walk σ}
      (hChild : c.move .firstChild s = (false, u)) (hClimb : Climbs c depth u attempts found w) :
      Steps c ⟨s, depth, false⟩ ((.firstChild, s) :: attempts) found w

variable {c : Cursor σ ν} {depth : Nat} {s : σ} {attempts log : List (Movement × σ)} {found : Bool}
  {w w' : Walk σ}

theorem exists_climbs (c : Cursor σ ν) (depth : Nat) (s : σ) :
    ∃ attempts found w, Climbs c depth s attempts found w := by
  induction depth generalizing s with
  | zero => exact ⟨[], false, _, .top s⟩
  | succ depth ih =>
    rcases hSibling : c.move .nextSibling s with ⟨_ | _, u⟩
    · rcases hParent : c.move .parent u with ⟨_ | _, p⟩
      · exact ⟨_, _, _, .stuck hSibling hParent⟩
      · obtain ⟨attempts, found, w, hRest⟩ := ih p
        exact ⟨_, _, _, .parent hSibling hParent hRest⟩
    · exact ⟨_, _, _, .sibling hSibling⟩

theorem exists_steps (c : Cursor σ ν) (w : Walk σ) : ∃ attempts found w', Steps c w attempts found w' := by
  obtain ⟨s, depth, _ | _⟩ := w
  · rcases hChild : c.move .firstChild s with ⟨_ | _, u⟩
    · obtain ⟨attempts, found, w, hClimb⟩ := exists_climbs c depth u
      exact ⟨_, _, _, .climb hChild hClimb⟩
    · exact ⟨_, _, _, .child hChild⟩
  · exact ⟨_, _, _, .finished s depth⟩

section Attempt

variable {attempt : Movement → σ → Except ε Bool × σ}

theorem Climbs.climb_eq (h : Climbs c depth s attempts found w)
    (hAttempt : ∀ a ∈ attempts, attempt a.1 a.2 = (.ok (c.move a.1 a.2).1, (c.move a.1 a.2).2)) :
    Walk.climb attempt depth s = (.ok found, w) := by
  induction h with
  | top s => rfl
  | sibling hSibling =>
    rw [List.forall_mem_singleton, hSibling] at hAttempt
    rw [Walk.climb, hAttempt]
  | stuck hSibling hParent =>
    rw [List.forall_mem_cons, List.forall_mem_singleton, hSibling, hParent] at hAttempt
    rw [Walk.climb, hAttempt.1]
    simp only [hAttempt.2]
  | parent hSibling hParent _ ih =>
    rw [List.forall_mem_cons, List.forall_mem_cons, hSibling, hParent] at hAttempt
    obtain ⟨hFirst, hSecond, hRest⟩ := hAttempt
    rw [Walk.climb, hFirst]
    simp only [hSecond]
    exact ih hRest

theorem Steps.advance_eq (h : Steps c w attempts found w')
    (hAttempt : ∀ a ∈ attempts, attempt a.1 a.2 = (.ok (c.move a.1 a.2).1, (c.move a.1 a.2).2)) :
    w.advance attempt = (.ok found, w') := by
  cases h with
  | finished s depth => rfl
  | child hChild =>
    rw [List.forall_mem_singleton, hChild] at hAttempt
    simp only [advance, hAttempt]
    rfl
  | climb hChild hClimb =>
    rw [List.forall_mem_cons, hChild] at hAttempt
    simp only [advance, hAttempt.1]
    exact hClimb.climb_eq hAttempt.2

end Attempt

theorem Steps.trust_eq (h : Steps c w attempts found w') : w.advance c.trust = (.ok found, w') :=
  h.advance_eq fun _ _ => rfl

def noting (log : List (Movement × σ)) (w : Walk σ) : Walk (σ × List (Movement × σ)) :=
  ⟨(w.cursor, log), w.depth, w.finished⟩

theorem Climbs.recording_eq (h : Climbs c depth s attempts found w) (log : List (Movement × σ)) :
    Walk.climb c.recording.trust depth (s, log) = (.ok found, noting (log ++ attempts) w) := by
  induction h generalizing log with
  | top s => rw [List.append_nil]; rfl
  | sibling hSibling => simp [Walk.climb, Cursor.trust, Cursor.recording, noting, hSibling]
  | stuck hSibling hParent =>
    simp [Walk.climb, Cursor.trust, Cursor.recording, noting, hSibling, hParent]
  | @parent _ s u _ _ _ _ hSibling hParent _ ih =>
    have hRest := ih (log ++ [(.nextSibling, s)] ++ [(.parent, u)])
    simp only [List.append_assoc, List.cons_append, List.nil_append] at hRest
    simpa [Walk.climb, Cursor.trust, Cursor.recording, hSibling, hParent] using hRest

theorem Steps.recording_eq (h : Steps c w attempts found w') (log : List (Movement × σ)) :
    (noting log w).advance c.recording.trust = (.ok found, noting (log ++ attempts) w') := by
  cases h with
  | finished s depth => rw [List.append_nil]; rfl
  | child hChild => simp [advance, Cursor.trust, Cursor.recording, noting, hChild]
  | @climb _ s _ _ _ _ hChild hClimb =>
    have hRest := hClimb.recording_eq (log ++ [(.firstChild, s)])
    rw [List.append_assoc] at hRest
    simpa [advance, Cursor.trust, Cursor.recording, noting, hChild] using hRest

section Invariant

variable {P : σ → Prop} (hMove : ∀ m s, P s → P (c.move m s).2)

include hMove

theorem of_move {m : Movement} {u : σ} {succeeded : Bool} (h : c.move m s = (succeeded, u)) (hs : P s) :
    P u := by
  have hu := hMove m s hs
  rwa [h] at hu

theorem Climbs.forall_states (h : Climbs c depth s attempts found w) (hs : P s) :
    (∀ a ∈ attempts, P a.2) ∧ P w.cursor := by
  induction h with
  | top s => exact ⟨fun _ ha => (by cases ha), hs⟩
  | sibling hSibling => exact ⟨List.forall_mem_singleton.mpr hs, of_move hMove hSibling hs⟩
  | stuck hSibling hParent =>
    have hu := of_move hMove hSibling hs
    exact ⟨List.forall_mem_cons.mpr ⟨hs, List.forall_mem_singleton.mpr hu⟩, of_move hMove hParent hu⟩
  | parent hSibling hParent _ ih =>
    have hu := of_move hMove hSibling hs
    obtain ⟨hAttempts, hw⟩ := ih (of_move hMove hParent hu)
    exact ⟨List.forall_mem_cons.mpr ⟨hs, List.forall_mem_cons.mpr ⟨hu, hAttempts⟩⟩, hw⟩

theorem Steps.forall_states (h : Steps c w attempts found w') (hw : P w.cursor) :
    (∀ a ∈ attempts, P a.2) ∧ P w'.cursor := by
  cases h with
  | finished s depth => exact ⟨fun _ ha => (by cases ha), hw⟩
  | child hChild => exact ⟨List.forall_mem_singleton.mpr hw, of_move hMove hChild hw⟩
  | climb hChild hClimb =>
    obtain ⟨hAttempts, hLast⟩ := hClimb.forall_states hMove (of_move hMove hChild hw)
    exact ⟨List.forall_mem_cons.mpr ⟨hw, hAttempts⟩, hLast⟩

end Invariant

def yielded (c : Cursor σ ν) (found : Bool) (w : Walk σ) : Option ν :=
  if found then some (c.node w.cursor) else none

theorem Steps.next_eq (h : Steps c w attempts found w') : next c w = (yielded c found w', w') := by
  rw [next, h.trust_eq]
  cases found <;> rfl

theorem Steps.next_recording_eq (h : Steps c w attempts found w') (log : List (Movement × σ)) :
    next c.recording (noting log w) = (yielded c found w', noting (log ++ attempts) w') := by
  rw [next, h.recording_eq]
  cases found <;> rfl

def after {α : Type} (next : Walk σ → α × Walk σ) (w : Walk σ) : Nat → Walk σ
  | 0 => w
  | n + 1 => (next (after next w n)).2

end Walk

namespace Cursor

open Walk

variable {σ ν : Type}

def walked (c : Cursor σ ν) (s : σ) : Nat → Walk σ :=
  Walk.after (Walk.next c) ⟨s, 0, false⟩

/-- The moves that a walk from a state has attempted after a number of calls for the next node. -/
def attempts (c : Cursor σ ν) (s : σ) (n : Nat) : List (Movement × σ) :=
  (c.recording.walked (s, []) n).cursor.2

theorem walked_succ (c : Cursor σ ν) (s : σ) (n : Nat) :
    c.walked s (n + 1) = (Walk.next c (c.walked s n)).2 :=
  rfl

theorem walked_recording (c : Cursor σ ν) (s : σ) (n : Nat) :
    c.recording.walked (s, []) n = noting (c.attempts s n) (c.walked s n) := by
  induction n with
  | zero => rfl
  | succ n ih =>
    obtain ⟨new, found, w, hSteps⟩ := exists_steps c (c.walked s n)
    rw [attempts, walked_succ, ih, hSteps.next_recording_eq, walked_succ, hSteps.next_eq]
    rfl

theorem attempts_succ (c : Cursor σ ν) (s : σ) (n : Nat) :
    ∃ new found, Steps c (c.walked s n) new found (c.walked s (n + 1)) ∧
      c.attempts s (n + 1) = c.attempts s n ++ new := by
  obtain ⟨new, found, w, hSteps⟩ := exists_steps c (c.walked s n)
  refine ⟨new, found, ?_, ?_⟩
  · rw [walked_succ, hSteps.next_eq]
    exact hSteps
  · rw [attempts, walked_succ, walked_recording, hSteps.next_recording_eq]
    rfl

theorem attempts_prefix (c : Cursor σ ν) (s : σ) {k n : Nat} (h : k ≤ n) :
    c.attempts s k <+: c.attempts s n := by
  induction h with
  | refl => exact List.prefix_refl _
  | @step n _ ih =>
    obtain ⟨new, -, -, hAttempts⟩ := c.attempts_succ s n
    rw [hAttempts]
    exact ih.trans (List.prefix_append _ _)

end Cursor

end GrammarShapes
