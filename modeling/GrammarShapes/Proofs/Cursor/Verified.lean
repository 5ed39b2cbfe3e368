import GrammarShapes.Cursor.Visiting
import GrammarShapes.Proofs.Cursor.Attempts

set_option autoImplicit false

/-! # Walks that hold moves to the contract

A walk that holds every move to the contract yields what the plain walk yields, with the same depths and
leaving the cursor in the same states, as long as no attempted move breaks the contract. The first that does
ends it: that call gives the violation, with the node before the move, and all later calls give nothing.
-/

namespace GrammarShapes

namespace Cursor

variable {σ ν : Type} [SyntaxNode ν] {c : Cursor σ ν} {m : Movement} {s : σ} {v : Violation}

/-- Whether a move breaks the contract in the given way: it fails and leaves its node, or succeeds and
stays on it. -/
def Breaks (c : Cursor σ ν) (m : Movement) (s : σ) : Violation → Prop
  | .movedOnFailure =>
      (c.move m s).1 = false ∧ SyntaxNode.same (c.node (c.move m s).2) (c.node s) = false
  | .stayedOnSuccess =>
      (c.move m s).1 = true ∧ SyntaxNode.same (c.node (c.move m s).2) (c.node s) = true

def Keeps (c : Cursor σ ν) (attempts : List (Movement × σ)) : Prop :=
  ∀ a ∈ attempts, ∀ v, ¬ c.Breaks a.1 a.2 v

def violationAt (c : Cursor σ ν) (m : Movement) (s : σ) (v : Violation) : ContractViolation :=
  ⟨m, v, SyntaxNode.kind (c.node s), SyntaxNode.range (c.node s)⟩

theorem verify_of_breaks (h : c.Breaks m s v) :
    c.verify m s = (.error (c.violationAt m s v), (c.move m s).2) := by
  cases v <;> simp only [verify, violation?, h.1, h.2] <;> rfl

theorem not_breaks_iff : (∀ v, ¬ c.Breaks m s v) ↔
    (c.move m s).1 = !SyntaxNode.same (c.node (c.move m s).2) (c.node s) := by
  have hEither : (∀ v, ¬ c.Breaks m s v) ↔
      ¬ c.Breaks m s .movedOnFailure ∧ ¬ c.Breaks m s .stayedOnSuccess := by
    refine ⟨fun h => ⟨h _, h _⟩, fun h v => ?_⟩
    cases v with
    | movedOnFailure => exact h.1
    | stayedOnSuccess => exact h.2
  rw [hEither, Breaks, Breaks]
  cases (c.move m s).1 <;> cases SyntaxNode.same (c.node (c.move m s).2) (c.node s) <;> decide

theorem verify_of_not_breaks (h : ∀ v, ¬ c.Breaks m s v) :
    c.verify m s = (.ok (c.move m s).1, (c.move m s).2) := by
  have hResult := not_breaks_iff.mp h
  cases hSame : SyntaxNode.same (c.node (c.move m s).2) (c.node s) <;>
    simp only [verify, violation?, hResult, hSame] <;> rfl

theorem keeps_iff {attempts : List (Movement × σ)} : c.Keeps attempts ↔ ∀ a ∈ attempts,
    (c.move a.1 a.2).1 = !SyntaxNode.same (c.node (c.move a.1 a.2).2) (c.node a.2) :=
  forall₂_congr fun _ _ => not_breaks_iff

theorem Keeps.of_append {first second : List (Movement × σ)} (h : c.Keeps (first ++ second)) :
    c.Keeps first ∧ c.Keeps second :=
  List.forall_mem_append.mp h

end Cursor

namespace Walk

variable {σ ν : Type} [SyntaxNode ν] {c : Cursor σ ν} {depth : Nat} {s x : σ} {m : Movement} {v : Violation}
  {attempts before rest : List (Movement × σ)} {found : Bool} {w w' : Walk σ}

theorem Climbs.verify_eq_error (h : Climbs c depth s (before ++ (m, x) :: rest) found w)
    (hKeeps : c.Keeps before) (hBreaks : c.Breaks m x v) :
    ∃ depth', Walk.climb c.verify depth s =
      (.error (c.violationAt m x v), ⟨(c.move m x).2, depth', true⟩) := by
  generalize hAttempts : before ++ (m, x) :: rest = attempts at h
  -- the breaking attempt is one at this level, or it is reached from the parent
  induction h generalizing before with
  | top s => simp at hAttempts
  | @sibling depth s u hSibling =>
    cases before with
    | nil =>
      cases hAttempts
      exact ⟨depth + 1, by rw [Walk.climb, Cursor.verify_of_breaks hBreaks]⟩
    | cons a before => simp at hAttempts
  | @stuck depth s u p hSibling hParent =>
    cases before with
    | nil =>
      cases hAttempts
      exact ⟨depth + 1, by rw [Walk.climb, Cursor.verify_of_breaks hBreaks]⟩
    | cons a before =>
      obtain ⟨rfl, hTail⟩ := List.cons.inj hAttempts
      obtain ⟨hFirst, -⟩ := List.forall_mem_cons.mp hKeeps
      cases before with
      | nil =>
        cases hTail
        refine ⟨depth + 1, ?_⟩
        rw [Walk.climb, Cursor.verify_of_not_breaks hFirst, hSibling]
        simp only [Cursor.verify_of_breaks hBreaks]
      | cons b before => simp at hTail
  | @parent depth s u p _ _ _ hSibling hParent _ ih =>
    cases before with
    | nil =>
      cases hAttempts
      exact ⟨depth + 1, by rw [Walk.climb, Cursor.verify_of_breaks hBreaks]⟩
    | cons a before =>
      obtain ⟨rfl, hTail⟩ := List.cons.inj hAttempts
      obtain ⟨hFirst, hOthers⟩ := List.forall_mem_cons.mp hKeeps
      rw [Walk.climb, Cursor.verify_of_not_breaks hFirst, hSibling]
      cases before with
      | nil =>
        cases hTail
        exact ⟨depth + 1, by simp only [Cursor.verify_of_breaks hBreaks]⟩
      | cons b before =>
        obtain ⟨rfl, hRest⟩ := List.cons.inj hTail
        obtain ⟨hSecond, hMore⟩ := List.forall_mem_cons.mp hOthers
        simp only [Cursor.verify_of_not_breaks hSecond, hParent]
        exact ih hMore hRest

theorem Steps.verify_eq (h : Steps c w attempts found w') (hKeeps : c.Keeps attempts) :
    w.advance c.verify = (.ok found, w') :=
  h.advance_eq fun a ha => Cursor.verify_of_not_breaks (hKeeps a ha)

theorem Steps.verify_eq_error (h : Steps c w (before ++ (m, x) :: rest) found w')
    (hKeeps : c.Keeps before) (hBreaks : c.Breaks m x v) :
    ∃ depth', w.advance c.verify = (.error (c.violationAt m x v), ⟨(c.move m x).2, depth', true⟩) := by
  generalize hAttempts : before ++ (m, x) :: rest = attempts at h
  cases h with
  | finished s depth => simp at hAttempts
  | @child depth s u hChild =>
    cases before with
    | nil =>
      cases hAttempts
      exact ⟨depth, by simp only [advance, Cursor.verify_of_breaks hBreaks]; rfl⟩
    | cons a before => simp at hAttempts
  | @climb depth s u _ _ _ hChild hClimb =>
    cases before with
    | nil =>
      cases hAttempts
      exact ⟨depth, by simp only [advance, Cursor.verify_of_breaks hBreaks]; rfl⟩
    | cons a before =>
      obtain ⟨rfl, rfl⟩ := List.cons.inj hAttempts
      obtain ⟨hFirst, hKeeps⟩ := List.forall_mem_cons.mp hKeeps
      obtain ⟨depth', hError⟩ := hClimb.verify_eq_error hKeeps hBreaks
      refine ⟨depth', ?_⟩
      simp only [advance, Cursor.verify_of_not_breaks hFirst, hChild]
      exact hError

theorem Steps.nextVerified_eq (h : Steps c w attempts found w') (hKeeps : c.Keeps attempts) :
    nextVerified c w = ((next c w).1.map .ok, (next c w).2) := by
  rw [h.next_eq, nextVerified, h.verify_eq hKeeps]
  cases found <;> rfl

theorem Steps.nextVerified_eq_error (h : Steps c w (before ++ (m, x) :: rest) found w')
    (hKeeps : c.Keeps before) (hBreaks : c.Breaks m x v) :
    ∃ depth', nextVerified c w =
      (some (.error (c.violationAt m x v)), ⟨(c.move m x).2, depth', true⟩) := by
  obtain ⟨depth', hError⟩ := h.verify_eq_error hKeeps hBreaks
  exact ⟨depth', by rw [nextVerified, hError]⟩

end Walk

namespace Cursor

open Walk

variable {σ ν : Type} [SyntaxNode ν] {c : Cursor σ ν} {s : σ} {n : Nat}

def walkedVerified (c : Cursor σ ν) (s : σ) : Nat → Walk σ :=
  Walk.after (Walk.nextVerified c) ⟨s, 0, false⟩

theorem walkedVerified_succ (c : Cursor σ ν) (s : σ) (n : Nat) :
    c.walkedVerified s (n + 1) = (Walk.nextVerified c (c.walkedVerified s n)).2 :=
  rfl

theorem walkedVerified_eq (h : c.Keeps (c.attempts s n)) : c.walkedVerified s n = c.walked s n := by
  induction n with
  | zero => rfl
  | succ n ih =>
    obtain ⟨new, found, hSteps, hAttempts⟩ := c.attempts_succ s n
    rw [hAttempts] at h
    obtain ⟨hBefore, hNew⟩ := h.of_append
    rw [walkedVerified_succ, ih hBefore, hSteps.nextVerified_eq hNew]
    rfl

theorem nextVerified_of_keeps (h : c.Keeps (c.attempts s n)) {k : Nat} (hk : k < n) :
    Walk.nextVerified c (c.walkedVerified s k) =
      ((Walk.next c (c.walked s k)).1.map .ok, (Walk.next c (c.walked s k)).2) := by
  have hKeeps : c.Keeps (c.attempts s (k + 1)) :=
    fun a ha => h a ((c.attempts_prefix s hk).mem ha)
  obtain ⟨new, found, hSteps, hAttempts⟩ := c.attempts_succ s k
  rw [hAttempts] at hKeeps
  obtain ⟨hBefore, hNew⟩ := hKeeps.of_append
  rw [walkedVerified_eq hBefore, hSteps.nextVerified_eq hNew]

theorem walkedVerified_of_finished {k : Nat} {w : Walk σ} (h : c.walkedVerified s n = w)
    (hFinished : w.finished = true) (hk : n ≤ k) : c.walkedVerified s k = w := by
  have hStays : Walk.nextVerified c w = (none, w) := by
    rw [Walk.nextVerified, Walk.advance, if_pos hFinished]
  induction hk with
  | refl => exact h
  | step _ ih => rw [walkedVerified_succ, ih, hStays]

theorem nextVerified_of_breaks {m : Movement} {x : σ} {v : Violation}
    {before rest : List (Movement × σ)} (hKeeps : c.Keeps (c.attempts s n))
    (hSplit : c.attempts s (n + 1) = before ++ (m, x) :: rest) (hBefore : c.Keeps before)
    (hBreaks : c.Breaks m x v) :
    (Walk.nextVerified c (c.walkedVerified s n)).1 = some (.error (c.violationAt m x v)) ∧
      ∀ k, n < k → (c.walkedVerified s k).cursor = (c.move m x).2 ∧
        (Walk.nextVerified c (c.walkedVerified s k)).1 = none := by
  obtain ⟨new, found, hSteps, hAttempts⟩ := c.attempts_succ s n
  -- the breaking move is not among the attempts of the earlier calls
  obtain ⟨own, rfl, rfl⟩ : ∃ own, before = c.attempts s n ++ own ∧ new = own ++ (m, x) :: rest := by
    rw [hAttempts] at hSplit
    rcases List.append_eq_append_iff.mp hSplit with ⟨own, hOwn, hNew⟩ | ⟨own, hOwn, hNew⟩
    · exact ⟨own, hOwn, hNew⟩
    · cases own with
      | nil => exact ⟨[], by rw [hOwn, List.append_nil, List.append_nil], hNew.symm⟩
      | cons a own =>
        cases hNew
        exact absurd hBreaks (hKeeps (m, x) (hOwn ▸ List.mem_append_cons_self) v)
  obtain ⟨depth, hError⟩ := hSteps.nextVerified_eq_error hBefore.of_append.2 hBreaks
  rw [← walkedVerified_eq hKeeps] at hError
  refine ⟨by rw [hError], fun k hk => ?_⟩
  have hEnd : c.walkedVerified s (n + 1) = ⟨(c.move m x).2, depth, true⟩ := by
    rw [walkedVerified_succ, hError]
  rw [walkedVerified_of_finished hEnd rfl hk]
  exact ⟨rfl, rfl⟩

end Cursor

namespace Outcome

variable {β γ : Type} {f : β → γ} {outcome : Outcome β}

def map (f : β → γ) : Outcome β → Outcome γ
  | .complete => .complete
  | .ended value => .ended (f value)
  | .unfinished => .unfinished

theorem exists_of_map_eq_ended {value : γ} (h : outcome.map f = .ended value) :
    ∃ own, outcome = .ended own ∧ f own = value := by
  cases outcome with
  | ended own =>
    cases h
    exact ⟨own, rfl, rfl⟩
  | complete | unfinished => cases h

theorem map_eq_unfinished_iff : outcome.map f = .unfinished ↔ outcome = .unfinished := by
  cases outcome <;> simp [map]

end Outcome

def Visit.map {β γ τ σ : Type} (f : β → γ) (v : Visit β τ σ) : Visit γ τ σ :=
  { v with outcome := v.outcome.map f }

theorem Walk.visit_nextVerified {σ ν β τ : Type} [SyntaxNode ν] {c : Cursor σ ν} {P : σ → Prop}
    (hMove : ∀ m s, P s → P (c.move m s).2) (hKeeps : ∀ m s, P s → ∀ v, ¬ c.Breaks m s v)
    (visitor : ν → τ → Option β × τ) (bound : Nat) {w : Walk σ} (hw : P w.cursor) (t : τ) :
    Walk.visit (nextVerified c) (Cursor.orViolation visitor) bound w t =
      (Walk.visit (next c) visitor bound w t).map .ok := by
  induction bound generalizing w t with
  | zero => rfl
  | succ bound ih =>
    obtain ⟨attempts, found, w', hSteps⟩ := exists_steps c w
    obtain ⟨hAttempts, hw'⟩ := hSteps.forall_states hMove hw
    rw [Walk.visit, Walk.visit, hSteps.nextVerified_eq fun a ha => hKeeps a.1 a.2 (hAttempts a ha),
      hSteps.next_eq]
    cases found with
    | false => rfl
    | true =>
      simp only [yielded, if_true, Option.map_some, Cursor.orViolation]
      rcases visitor (c.node w'.cursor) t with ⟨_ | value, t'⟩
      · exact ih hw' t'
      · rfl

theorem Cursor.walk_eq {β τ σ ν : Type} (c : Cursor σ ν) (visitor : ν → τ → Option β × τ) (bound : Nat)
    (s : σ) (t : τ) :
    ∃ events, c.walk visitor bound s t =
      { Walk.visit (Walk.next c) visitor bound ⟨s, 0, false⟩ t with events } := by
  rw [Cursor.walk]
  obtain ⟨outcome, visitor, cursor, events⟩ := Walk.visit (Walk.next c) visitor bound ⟨s, 0, false⟩ t
  cases outcome <;> exact ⟨_, rfl⟩

end GrammarShapes
