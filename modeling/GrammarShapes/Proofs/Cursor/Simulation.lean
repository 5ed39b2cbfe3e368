import GrammarShapes.Cursor.Outline
import GrammarShapes.Cursor.Visiting

set_option autoImplicit false

/-! # Cursors that do the same

One cursor carries another along if a map takes its states to states of the other that show the same nodes
and move in the same way, as long as its own states have a property that moves keep. Then walks, verified or
not, visits and outlines of the two give the same, and the map takes the states in which they end to each
other.
-/

namespace GrammarShapes

section Carrying

variable {σ σ' ν ε α β τ : Type}

def CarriedTo (P : σ → Prop) (f : σ → σ') (x : α × σ) (x' : α × σ') : Prop :=
  P x.2 ∧ x' = (x.1, f x.2)

structure Cursor.Carries (P : σ → Prop) (f : σ → σ') (c : Cursor σ ν) (c' : Cursor σ' ν) : Prop where
  node_eq : ∀ {s}, P s → c'.node (f s) = c.node s
  move : ∀ {s}, P s → ∀ m, CarriedTo P f (c.move m s) (c'.move m (f s))

def Walk.mapCursor (f : σ → σ') (w : Walk σ) : Walk σ' :=
  ⟨f w.cursor, w.depth, w.finished⟩

def Visit.mapCursor (f : σ → σ') (v : Visit β τ σ) : Visit β τ σ' :=
  ⟨v.outcome, v.visitor, f v.cursor, v.events⟩

variable {P : σ → Prop} {f : σ → σ'}

namespace Walk

abbrev CarriedTo (P : σ → Prop) (f : σ → σ') (x : α × Walk σ) (x' : α × Walk σ') : Prop :=
  GrammarShapes.CarriedTo (fun w => P w.cursor) (Walk.mapCursor f) x x'

section Attempts

variable {attempt : Movement → σ → Except ε Bool × σ} {attempt' : Movement → σ' → Except ε Bool × σ'}
  (h : ∀ {s}, P s → ∀ m, GrammarShapes.CarriedTo P f (attempt m s) (attempt' m (f s)))

include h

theorem carriedTo_climb (depth : Nat) {s : σ} (hs : P s) :
    CarriedTo P f (climb attempt depth s) (climb attempt' depth (f s)) := by
  induction depth generalizing s with
  | zero => exact ⟨hs, rfl⟩
  | succ depth ih =>
    obtain ⟨hBeside, hNext⟩ := h hs .nextSibling
    rw [climb, climb, hNext]
    rcases hTried : attempt .nextSibling s with ⟨_ | _ | _, s₁⟩
    all_goals
      rw [hTried] at hBeside
    · exact ⟨hBeside, rfl⟩
    · obtain ⟨hAbove, hParent⟩ := h hBeside .parent
      simp only [hParent]
      rcases hClimbed : attempt .parent s₁ with ⟨_ | _ | _, s₂⟩
      all_goals
        rw [hClimbed] at hAbove
      · exact ⟨hAbove, rfl⟩
      · exact ⟨hAbove, rfl⟩
      · exact ih hAbove
    · exact ⟨hBeside, rfl⟩

theorem carriedTo_advance {w : Walk σ} (hw : P w.cursor) :
    CarriedTo P f (w.advance attempt) ((w.mapCursor f).advance attempt') := by
  obtain ⟨s, depth, finished⟩ := w
  cases finished with
  | true => exact ⟨hw, rfl⟩
  | false =>
    obtain ⟨hBelow, hFirst⟩ := h hw .firstChild
    rw [advance, advance, Walk.mapCursor, if_neg Bool.false_ne_true, if_neg Bool.false_ne_true, hFirst]
    rcases hTried : attempt .firstChild s with ⟨_ | _ | _, s₁⟩
    all_goals
      rw [hTried] at hBelow
    · exact ⟨hBelow, rfl⟩
    · exact carriedTo_climb h depth hBelow
    · exact ⟨hBelow, rfl⟩

end Attempts

section Items

variable {next : Walk σ → Option α × Walk σ} {next' : Walk σ' → Option α × Walk σ'}
  (h : ∀ {w}, P w.cursor → CarriedTo P f (next w) (next' (w.mapCursor f)))

include h

theorem take_mapCursor (count : Nat) {w : Walk σ} (hw : P w.cursor) :
    take next' count (w.mapCursor f) = ((take next count w).1, (take next count w).2.mapCursor f) := by
  induction count generalizing w with
  | zero => rfl
  | succ count ih =>
    obtain ⟨hKept, hNext⟩ := h hw
    rw [take, take, hNext]
    rcases hItem : next w with ⟨_ | a, w₁⟩
    · rfl
    · rw [hItem] at hKept
      simp only [ih hKept]
      rfl

theorem visit_mapCursor (visitor : α → τ → Option β × τ) (bound : Nat) {w : Walk σ} (hw : P w.cursor) (t : τ) :
    visit next' visitor bound (w.mapCursor f) t = (visit next visitor bound w t).mapCursor f := by
  induction bound generalizing w t with
  | zero => rfl
  | succ bound ih =>
    obtain ⟨hKept, hNext⟩ := h hw
    rw [visit, visit, hNext]
    rcases hItem : next w with ⟨_ | a, w₁⟩
    · rfl
    · rw [hItem] at hKept
      rcases hVisit : visitor a t with ⟨_ | b, t₁⟩
      · simp only [hVisit]
        exact ih hKept t₁
      · simp only [hVisit]
        rfl

end Items

end Walk

namespace Cursor.Carries

variable {c : Cursor σ ν} {c' : Cursor σ' ν}

theorem trust (h : Carries P f c c') {s : σ} (hs : P s) (m : Movement) :
    CarriedTo P f (c.trust m s) (c'.trust m (f s)) := by
  obtain ⟨hKept, hMove⟩ := h.move hs m
  refine ⟨hKept, ?_⟩
  rw [Cursor.trust, hMove]
  rfl

theorem verify [SyntaxNode ν] (h : Carries P f c c') {s : σ} (hs : P s) (m : Movement) :
    CarriedTo P f (c.verify m s) (c'.verify m (f s)) := by
  obtain ⟨hKept, hMove⟩ := h.move hs m
  rw [Cursor.verify, Cursor.verify, hMove]
  simp only [h.node_eq hs, h.node_eq hKept]
  cases violation? (c.move m s).1 (c.node s) (c.node (c.move m s).2) <;> exact ⟨hKept, rfl⟩

theorem next (h : Carries P f c c') {w : Walk σ} (hw : P w.cursor) :
    Walk.CarriedTo P f (Walk.next c w) (Walk.next c' (w.mapCursor f)) := by
  obtain ⟨hKept, hAdvance⟩ := Walk.carriedTo_advance h.trust hw
  rw [Walk.next, Walk.next, hAdvance]
  rcases hOutcome : w.advance c.trust with ⟨e | _ | _, w₁⟩
  · cases e
  all_goals
    rw [hOutcome] at hKept
  · exact ⟨hKept, rfl⟩
  · exact ⟨hKept, congrArg (fun n => (some n, w₁.mapCursor f)) (h.node_eq hKept)⟩

theorem nextVerified [SyntaxNode ν] (h : Carries P f c c') {w : Walk σ} (hw : P w.cursor) :
    Walk.CarriedTo P f (Walk.nextVerified c w) (Walk.nextVerified c' (w.mapCursor f)) := by
  obtain ⟨hKept, hAdvance⟩ := Walk.carriedTo_advance h.verify hw
  rw [Walk.nextVerified, Walk.nextVerified, hAdvance]
  rcases hOutcome : w.advance c.verify with ⟨v | _ | _, w₁⟩
  all_goals
    rw [hOutcome] at hKept
  · exact ⟨hKept, rfl⟩
  · exact ⟨hKept, rfl⟩
  · exact ⟨hKept, congrArg (fun n : ν => (some (Except.ok n), w₁.mapCursor f)) (h.node_eq hKept)⟩

variable {s : σ}

theorem take_eq (h : Carries P f c c') (hs : P s) (bound : Nat) :
    Walk.take (Walk.next c') bound ⟨f s, 0, false⟩ =
      ((Walk.take (Walk.next c) bound ⟨s, 0, false⟩).1,
        (Walk.take (Walk.next c) bound ⟨s, 0, false⟩).2.mapCursor f) :=
  Walk.take_mapCursor h.next bound (w := ⟨s, 0, false⟩) hs

theorem walk_eq (h : Carries P f c c') (hs : P s) (visitor : ν → τ → Option β × τ) (bound : Nat) (t : τ) :
    c'.walk visitor bound (f s) t = (c.walk visitor bound s t).mapCursor f := by
  have hVisit := Walk.visit_mapCursor h.next visitor bound (w := ⟨s, 0, false⟩) hs t
  rw [Walk.mapCursor] at hVisit
  rw [walk, walk, hVisit]
  simp only [Visit.mapCursor]
  split <;> rfl

theorem walkVerified_eq [SyntaxNode ν] (h : Carries P f c c') (hs : P s) (visitor : ν → τ → Option β × τ)
    (bound : Nat) (t : τ) :
    c'.walkVerified visitor bound (f s) t = (c.walkVerified visitor bound s t).mapCursor f :=
  Walk.visit_mapCursor h.nextVerified (orViolation visitor) bound (w := ⟨s, 0, false⟩) hs t

theorem text_eq [SyntaxNode ν] (h : Carries P f c c') (hs : P s) (o : Outline) (bound : Nat) :
    o.text c' bound (f s) = ((o.text c bound s).1, f (o.text c bound s).2) := by
  rw [Outline.text, Outline.text, h.take_eq hs, h.node_eq hs]
  rfl

end Cursor.Carries

end Carrying

end GrammarShapes
