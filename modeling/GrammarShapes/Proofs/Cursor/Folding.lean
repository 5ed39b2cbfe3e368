import GrammarShapes.Cursor.Visiting
import GrammarShapes.Proofs.Cursor.Attempts

set_option autoImplicit false

/-! # Visiting as a fold

Calling a visitor on the items of a walk is the left fold of the visitor over the list of these items that
ends where the visitor gives a value. If it does, the cursor is on the node on which the visitor was called
last; otherwise it is where the walk ends. A visitor may note its calls, which changes nothing else.
-/

namespace GrammarShapes

namespace Outcome

variable {β : Type}

def value? : Outcome β → Option β
  | .ended value => some value
  | .complete | .unfinished => none

end Outcome

namespace Visitor

variable {α β τ : Type}

/-- Folds a visitor over a list from the left, as far as the first item for which it gives a value. -/
def foldUntil (visitor : α → τ → Option β × τ) : List α → τ → Option β × τ
  | [], t => (none, t)
  | a :: rest, t =>
      match visitor a t with
      | (some value, t) => (some value, t)
      | (none, t) => foldUntil visitor rest t

def stateAfter (visitor : α → τ → Option β × τ) (items : List α) (t : τ) : τ :=
  items.foldl (fun t a => (visitor a t).2) t

def Passes (visitor : α → τ → Option β × τ) : List α → τ → Prop
  | [], _ => True
  | a :: rest, t => (visitor a t).1 = none ∧ Passes visitor rest (visitor a t).2

def collecting (visitor : α → τ → Option β × τ) (a : α) (t : List α × τ) : Option β × List α × τ :=
  ((visitor a t.2).1, t.1 ++ [a], (visitor a t.2).2)

variable {visitor : α → τ → Option β × τ} {items before : List α} {t : τ}

theorem foldUntil_append (rest : List α) (h : Passes visitor before t) :
    foldUntil visitor (before ++ rest) t = foldUntil visitor rest (stateAfter visitor before t) := by
  induction before generalizing t with
  | nil => rfl
  | cons a before ih =>
    obtain ⟨hFirst, hBefore⟩ := h
    rw [List.cons_append, foldUntil, stateAfter, List.foldl_cons]
    rcases hVisit : visitor a t with ⟨_ | value, t'⟩
    · rw [hVisit] at hBefore
      exact ih hBefore
    · rw [hVisit] at hFirst
      cases hFirst

theorem foldUntil_of_passes (h : Passes visitor items t) :
    foldUntil visitor items t = (none, stateAfter visitor items t) := by
  have hFold := foldUntil_append [] h
  rwa [List.append_nil] at hFold

theorem passes_collecting_iff {called : List α} :
    Passes (collecting visitor) items (called, t) ↔ Passes visitor items t := by
  induction items generalizing called t with
  | nil => exact Iff.rfl
  | cons a items ih => exact and_congr_right fun _ => ih

theorem stateAfter_collecting (called : List α) :
    stateAfter (collecting visitor) items (called, t) = (called ++ items, stateAfter visitor items t) := by
  induction items generalizing called t with
  | nil => rw [List.append_nil]; rfl
  | cons a items ih =>
    rw [stateAfter, List.foldl_cons, ← stateAfter, collecting, ih, List.append_assoc]
    rfl

end Visitor

open Visitor

/-- `Visits c visitor items last start v`: visiting the items of a walk that leaves its cursor in `last` goes
as in `v`. -/
inductive Visits {β τ σ ν : Type} (c : Cursor σ ν) (visitor : ν → τ → Option β × τ) (items : List ν)
    (last : σ) (start : τ) : Visit β τ σ → Prop where
  | ended {before after : List ν} {value : β} {t : τ} (s : σ)
      (hItems : items = before ++ c.node s :: after) (hBefore : Passes visitor before start)
      (hValue : visitor (c.node s) (stateAfter visitor before start) = (some value, t)) :
      Visits c visitor items last start ⟨.ended value, t, s, []⟩
  | complete (hAll : Passes visitor items start) :
      Visits c visitor items last start ⟨.complete, stateAfter visitor items start, last, []⟩

section

variable {β τ σ ν : Type} {c : Cursor σ ν} {visitor : ν → τ → Option β × τ} {items : List ν} {last : σ}
  {start t : τ} {v : Visit β τ σ}

theorem Visits.cons {n : ν} (h : Visits c visitor items last t v) (hPass : visitor n start = (none, t)) :
    Visits c visitor (n :: items) last start v := by
  have hNone : (visitor n start).1 = none := by rw [hPass]
  obtain rfl : (visitor n start).2 = t := by rw [hPass]
  cases h with
  | @ended before after value t' s hItems hBefore hValue =>
    have hBefore' : Passes visitor (n :: before) start := ⟨hNone, hBefore⟩
    exact .ended s (congrArg (n :: ·) hItems) hBefore' hValue
  | complete hAll =>
    have hAll' : Passes visitor (n :: items) start := ⟨hNone, hAll⟩
    exact .complete hAll'

theorem Visits.foldUntil_eq (h : Visits c visitor items last start v) :
    foldUntil visitor items start = (v.outcome.value?, v.visitor) := by
  cases h with
  | ended s hItems hBefore hValue =>
    rw [hItems, foldUntil_append _ hBefore, foldUntil, hValue]
    rfl
  | complete hAll => exact foldUntil_of_passes hAll

theorem Walk.node_of_next {n : ν} {w w' : Walk σ} (h : Walk.next c w = (some n, w')) :
    c.node w'.cursor = n := by
  rw [Walk.next] at h
  rcases hAdvance : w.advance c.trust with ⟨(e | _ | _), w''⟩
  · cases e
  · rw [hAdvance] at h
    cases h
  · rw [hAdvance] at h
    cases h
    rfl

theorem Walk.visits_visit (visitor : ν → τ → Option β × τ) {bound : Nat} {w : Walk σ} (start : τ)
    (h : (Walk.take (Walk.next c) bound w).1.length < bound) :
    Visits c visitor ((Walk.take (Walk.next c) bound w).1.map Prod.fst)
      (Walk.take (Walk.next c) bound w).2.cursor start (Walk.visit (Walk.next c) visitor bound w start) := by
  induction bound generalizing w start with
  | zero => exact absurd h (Nat.not_lt_zero _)
  | succ bound ih =>
    rcases hNext : Walk.next c w with ⟨_ | n, w'⟩
    · simp only [Walk.take, Walk.visit, hNext]
      exact .complete trivial
    · simp only [Walk.take, hNext, List.length_cons, Nat.add_lt_add_iff_right] at h
      simp only [Walk.take, Walk.visit, hNext, List.map_cons]
      rcases hVisit : visitor n start with ⟨_ | value, t⟩
      · exact (ih t h).cons hVisit
      · obtain rfl := Walk.node_of_next hNext
        have hNothing : Passes visitor [] start := trivial
        exact .ended w'.cursor rfl hNothing hVisit

theorem Walk.of_visit {P : σ → Prop} (hMove : ∀ m s, P s → P (c.move m s).2)
    (visitor : ν → τ → Option β × τ) (bound : Nat) {w : Walk σ} (hw : P w.cursor) (start : τ) :
    P (Walk.visit (Walk.next c) visitor bound w start).cursor := by
  induction bound generalizing w start with
  | zero => exact hw
  | succ bound ih =>
    obtain ⟨attempts, found, w', hSteps⟩ := Walk.exists_steps c w
    obtain ⟨-, hw'⟩ := hSteps.forall_states hMove hw
    rw [Walk.visit, hSteps.next_eq]
    cases found with
    | false => exact hw'
    | true =>
      simp only [Walk.yielded, if_true]
      rcases visitor (c.node w'.cursor) start with ⟨_ | value, t⟩
      · exact ih hw' t
      · exact hw'

theorem Walk.visit_collecting (next : Walk σ → Option ν × Walk σ) (visitor : ν → τ → Option β × τ) (bound : Nat)
    (w : Walk σ) (called : List ν) (t : τ) :
    Walk.visit next visitor bound w t =
      { Walk.visit next (collecting visitor) bound w (called, t) with
        visitor := (Walk.visit next (collecting visitor) bound w (called, t)).visitor.2 } := by
  induction bound generalizing w called t with
  | zero => rfl
  | succ bound ih =>
    rcases hNext : next w with ⟨_ | n, w'⟩
    · simp only [Walk.visit, hNext]
    · rcases hVisit : visitor n t with ⟨_ | value, t'⟩
      · simp only [Walk.visit, hNext, hVisit, collecting, ih w' (called ++ [n]) t']
      · simp only [Walk.visit, hNext, hVisit, collecting]

theorem Cursor.walk_collecting (c : Cursor σ ν) (visitor : ν → τ → Option β × τ) (bound : Nat) (s : σ) (t : τ) :
    c.walk visitor bound s t =
      { c.walk (collecting visitor) bound s ([], t) with
        visitor := (c.walk (collecting visitor) bound s ([], t)).visitor.2 } := by
  rw [Cursor.walk, Cursor.walk, Walk.visit_collecting (Walk.next c) visitor bound _ [] t]
  generalize Walk.visit (Walk.next c) (collecting visitor) bound ⟨s, 0, false⟩ ([], t) = v
  obtain ⟨outcome, visitor, cursor, events⟩ := v
  cases outcome <;> rfl

end

end GrammarShapes
