import GrammarShapes.Proofs.Cursor.Attempts

set_option autoImplicit false

/-! # The discipline of a walk

What a walk may attempt next depends on how its last attempt came out and on its depth, not on what the
cursor shows. So the moves that a walk attempts obey the same order whatever they report: a node is entered
before its siblings are tried, the parent is tried where no sibling follows, and nothing is tried beside or
above the start. Each call for a node ends with the first attempt that enters one. A walk that has given
nothing attempts nothing more.
-/

namespace GrammarShapes

inductive Stage where
  /-- The last move has led to the node. -/
  | arrived
  /-- Nothing below the node is left to visit. -/
  | visited
  /-- No sibling follows the node. -/
  | last
  /-- No move leads on from the node. -/
  | stuck

namespace Cursor

variable {σ ν : Type}

/-- `Follows c stage depth a stage' depth'`: at this stage and depth a walk may attempt `a`, after which it
is at that stage and depth. -/
inductive Follows (c : Cursor σ ν) : Stage → Nat → Movement × σ → Stage → Nat → Prop where
  | child {depth : Nat} {s : σ} (h : (c.move .firstChild s).1 = true) :
      Follows c .arrived depth (.firstChild, s) .arrived (depth + 1)
  | childless {depth : Nat} {s : σ} (h : (c.move .firstChild s).1 = false) :
      Follows c .arrived depth (.firstChild, s) .visited depth
  | sibling {depth : Nat} {s : σ} (h : (c.move .nextSibling s).1 = true) :
      Follows c .visited (depth + 1) (.nextSibling, s) .arrived (depth + 1)
  | last {depth : Nat} {s : σ} (h : (c.move .nextSibling s).1 = false) :
      Follows c .visited (depth + 1) (.nextSibling, s) .last (depth + 1)
  | parent {depth : Nat} {s : σ} (h : (c.move .parent s).1 = true) :
      Follows c .last (depth + 1) (.parent, s) .visited depth
  | stuck {depth : Nat} {s : σ} (h : (c.move .parent s).1 = false) :
      Follows c .last (depth + 1) (.parent, s) .stuck (depth + 1)

/-- `Obeys c stage depth attempts stage' depth'`: each of the attempts is one that may follow. -/
inductive Obeys (c : Cursor σ ν) : Stage → Nat → List (Movement × σ) → Stage → Nat → Prop where
  | nil (stage : Stage) (depth : Nat) : Obeys c stage depth [] stage depth
  | cons {stage stage' stage'' : Stage} {depth depth' depth'' : Nat} {a : Movement × σ}
      {attempts : List (Movement × σ)} (hFirst : Follows c stage depth a stage' depth')
      (hRest : Obeys c stage' depth' attempts stage'' depth'') :
      Obeys c stage depth (a :: attempts) stage'' depth''

def successes (c : Cursor σ ν) (m : Movement) (attempts : List (Movement × σ)) : Nat :=
  attempts.countP fun a => decide (a.1 = m) && (c.move a.1 a.2).1

def enters (c : Cursor σ ν) (a : Movement × σ) : Bool :=
  decide (a.1 ≠ .parent) && (c.move a.1 a.2).1

def reached (c : Cursor σ ν) (a : Movement × σ) : ν :=
  c.node (c.move a.1 a.2).2

variable {c : Cursor σ ν} {stage stage' stage'' : Stage} {depth depth' depth'' : Nat} {a : Movement × σ}
  {attempts before after : List (Movement × σ)}

theorem successes_append (m : Movement) :
    c.successes m (before ++ after) = c.successes m before + c.successes m after :=
  List.countP_append

theorem Follows.depth_eq (h : Follows c stage depth a stage' depth') :
    depth' + c.successes .parent [a] = depth + c.successes .firstChild [a] := by
  cases h with
  | child h | childless h | sibling h | last h | parent h | stuck h => simp [successes, h]

theorem Follows.depth_pos (h : Follows c stage depth a stage' depth') (hMove : a.1 ≠ .firstChild) :
    0 < depth := by
  cases h with
  | child | childless => exact absurd rfl hMove
  | sibling | last | parent | stuck => exact Nat.succ_pos _

namespace Obeys

theorem append (hBefore : Obeys c stage depth before stage' depth')
    (hAfter : Obeys c stage' depth' after stage'' depth'') :
    Obeys c stage depth (before ++ after) stage'' depth'' := by
  induction hBefore with
  | nil => exact hAfter
  | cons hFirst _ ih => exact .cons hFirst (ih hAfter)

theorem exists_of_append (h : Obeys c stage depth (before ++ after) stage'' depth'') :
    ∃ stage' depth', Obeys c stage depth before stage' depth' ∧
      Obeys c stage' depth' after stage'' depth'' := by
  induction before generalizing stage depth with
  | nil => exact ⟨stage, depth, .nil stage depth, h⟩
  | cons a before ih =>
    cases h with
    | cons hFirst hRest =>
      obtain ⟨stage', depth', hBefore, hAfter⟩ := ih hRest
      exact ⟨stage', depth', .cons hFirst hBefore, hAfter⟩

theorem depth_eq (h : Obeys c stage depth attempts stage' depth') :
    depth' + c.successes .parent attempts = depth + c.successes .firstChild attempts := by
  induction h with
  | nil => rfl
  | @cons _ _ _ _ _ _ a attempts hFirst _ ih =>
    have hStep := hFirst.depth_eq
    rw [← List.singleton_append, successes_append, successes_append]
    omega

/-- At the start of an attempt the depth is what the attempts before it have made of it. -/
theorem successes_lt (h : Obeys c stage 0 (before ++ a :: after) stage' depth')
    (hMove : a.1 ≠ .firstChild) : c.successes .parent before < c.successes .firstChild before := by
  obtain ⟨_, depth, hBefore, hAfter⟩ := h.exists_of_append
  have hDepth := hBefore.depth_eq
  cases hAfter with
  | cons hFirst _ =>
    have hPos := hFirst.depth_pos hMove
    omega

theorem successes_le (h : Obeys c stage 0 (before ++ after) stage' depth') :
    c.successes .parent before ≤ c.successes .firstChild before := by
  obtain ⟨_, depth, hBefore, -⟩ := h.exists_of_append
  have hDepth := hBefore.depth_eq
  omega

theorem exists_sibling (h : Obeys c stage depth attempts .arrived depth') (hStage : stage ≠ .arrived) :
    ∃ s, (Movement.nextSibling, s) ∈ attempts ∧ (c.move .nextSibling s).1 = true := by
  generalize hEnd : Stage.arrived = final at h
  induction h with
  | nil => exact absurd hEnd.symm hStage
  | cons hFirst _ ih =>
    cases hFirst with
    | child | childless => exact absurd rfl hStage
    | sibling hSibling => exact ⟨_, List.mem_cons_self, hSibling⟩
    | last | parent | stuck =>
      obtain ⟨s, hMem, hSibling⟩ := ih (by simp) hEnd
      exact ⟨s, List.mem_cons_of_mem _ hMem, hSibling⟩

theorem exists_sibling_between {x y : σ} {between : List (Movement × σ)}
    (h : Obeys c stage depth (before ++ (.parent, x) :: between ++ (.firstChild, y) :: after) stage' depth')
    (hParent : (c.move .parent x).1 = true) :
    ∃ z, (Movement.nextSibling, z) ∈ between ∧ (c.move .nextSibling z).1 = true := by
  obtain ⟨_, _, hFront, hChild⟩ := h.exists_of_append
  obtain ⟨_, _, -, hBetween⟩ := hFront.exists_of_append
  cases hChild with
  | cons hChild _ =>
    cases hBetween with
    | cons hClimb hBetween =>
      cases hClimb with
      | stuck hFailed => exact absurd (hParent.symm.trans hFailed) (by decide)
      | parent _ => cases hChild <;> exact hBetween.exists_sibling (by simp)

end Obeys

/-- What a call for the next node gives: the node that its last attempt enters, and no attempt before
enters one, or nothing if none of them does. -/
inductive Answers (c : Cursor σ ν) : List (Movement × σ) → Option ν → Prop where
  | nothing {attempts : List (Movement × σ)} (h : ∀ a ∈ attempts, c.enters a = false) :
      Answers c attempts none
  | found {before : List (Movement × σ)} {a : Movement × σ} (h : ∀ b ∈ before, c.enters b = false)
      (ha : c.enters a = true) : Answers c (before ++ [a]) (some (c.reached a))

theorem Answers.single {m : Movement} {s u : σ} (h : c.move m s = (true, u)) (hMove : m ≠ .parent) :
    Answers c [(m, s)] (some (c.node u)) := by
  have hReached : c.reached (m, s) = c.node u := by rw [reached, h]
  have hAnswer : Answers c ([] ++ [(m, s)]) (some (c.reached (m, s))) :=
    .found (fun _ hb => (by cases hb)) (by simp [enters, h, hMove])
  rwa [hReached] at hAnswer

theorem Answers.cons {node? : Option ν} (h : Answers c attempts node?) (ha : c.enters a = false) :
    Answers c (a :: attempts) node? := by
  cases h with
  | nothing hNone => exact .nothing (List.forall_mem_cons.mpr ⟨ha, hNone⟩)
  | found hBefore hLast => exact .found (List.forall_mem_cons.mpr ⟨ha, hBefore⟩) hLast

theorem Answers.toList_eq {node? : Option ν} (h : Answers c attempts node?) :
    node?.toList = (attempts.filter c.enters).map c.reached := by
  cases h with
  | nothing hNone =>
    rw [List.filter_eq_nil_iff.mpr fun a ha => Bool.eq_false_iff.mp (hNone a ha)]
    rfl
  | found hBefore hLast =>
    rw [List.filter_append, List.filter_eq_nil_iff.mpr fun a ha => Bool.eq_false_iff.mp (hBefore a ha),
      List.filter_cons_of_pos hLast]
    rfl

end Cursor

namespace Walk

open Cursor

variable {σ ν : Type} {c : Cursor σ ν} {depth : Nat} {s : σ} {attempts : List (Movement × σ)}
  {found : Bool} {w w' : Walk σ}

theorem Climbs.finished_eq (h : Climbs c depth s attempts found w) : w.finished = !found := by
  induction h with
  | top | sibling | stuck => rfl
  | parent _ _ _ ih => exact ih

theorem Steps.finished_eq (h : Steps c w attempts found w') : w'.finished = !found := by
  cases h with
  | finished | child => rfl
  | climb _ hClimb => exact hClimb.finished_eq

theorem Steps.of_finished (h : Steps c w attempts found w') (hFinished : w.finished = true) :
    attempts = [] ∧ found = false ∧ w' = w := by
  cases h with
  | finished => exact ⟨rfl, rfl, rfl⟩
  | child | climb => cases hFinished

theorem Climbs.length_le (h : Climbs c depth s attempts found w) : attempts.length ≤ 2 * depth := by
  induction h with
  | top => exact Nat.le_refl 0
  | sibling | stuck => simp only [List.length_cons, List.length_nil]; omega
  | parent _ _ _ ih => simp only [List.length_cons]; omega

theorem Steps.length_le (h : Steps c w attempts found w') : attempts.length ≤ 2 * w.depth + 1 := by
  cases h with
  | finished | child => simp
  | climb _ hClimb => simpa using hClimb.length_le

theorem Climbs.obeys (h : Climbs c depth s attempts found w) :
    ∃ stage, Obeys c .visited depth attempts stage w.depth ∧ (found = true → stage = .arrived) := by
  induction h with
  | top => exact ⟨.visited, .nil .visited 0, fun hFound => (by cases hFound)⟩
  | sibling hSibling =>
    exact ⟨.arrived, .cons (.sibling (by rw [hSibling])) (.nil .arrived _), fun _ => rfl⟩
  | stuck hSibling hParent =>
    exact ⟨.stuck, .cons (.last (by rw [hSibling])) (.cons (.stuck (by rw [hParent])) (.nil .stuck _)),
      fun hFound => (by cases hFound)⟩
  | parent hSibling hParent _ ih =>
    obtain ⟨stage, hRest, hStage⟩ := ih
    exact ⟨stage, .cons (.last (by rw [hSibling])) (.cons (.parent (by rw [hParent])) hRest), hStage⟩

theorem Steps.obeys (h : Steps c w attempts found w') (hFinished : w.finished = false) :
    ∃ stage, Obeys c .arrived w.depth attempts stage w'.depth ∧ (found = true → stage = .arrived) := by
  cases h with
  | finished => cases hFinished
  | child hChild =>
    exact ⟨.arrived, .cons (.child (by rw [hChild])) (.nil .arrived _), fun _ => rfl⟩
  | climb hChild hClimb =>
    obtain ⟨stage, hRest, hStage⟩ := hClimb.obeys
    exact ⟨stage, .cons (.childless (by rw [hChild])) hRest, hStage⟩

theorem Climbs.answers (h : Climbs c depth s attempts found w) :
    Answers c attempts (yielded c found w) := by
  induction h with
  | top => exact .nothing fun _ ha => (by cases ha)
  | sibling hSibling => exact .single hSibling (by decide)
  | stuck hSibling hParent =>
    refine .nothing (List.forall_mem_cons.mpr ⟨?_, List.forall_mem_singleton.mpr ?_⟩)
    · simp [enters, hSibling]
    · simp [enters]
  | parent hSibling hParent _ ih =>
    exact (ih.cons (by simp [enters])).cons (by simp [enters, hSibling])

theorem Steps.answers (h : Steps c w attempts found w') : Answers c attempts (next c w).1 := by
  rw [h.next_eq]
  cases h with
  | finished => exact .nothing fun _ ha => (by cases ha)
  | child hChild => exact .single hChild (by decide)
  | climb hChild hClimb => exact hClimb.answers.cons (by simp [enters, hChild])

end Walk

namespace Cursor

open Walk

variable {σ ν : Type}

def given (c : Cursor σ ν) (s : σ) (n : Nat) : List ν :=
  (List.range n).filterMap fun k => (Walk.next c (c.walked s k)).1

theorem obeys_attempts (c : Cursor σ ν) (s : σ) (n : Nat) :
    ∃ stage, Obeys c .arrived 0 (c.attempts s n) stage (c.walked s n).depth ∧
      ((c.walked s n).finished = false → stage = .arrived) := by
  induction n with
  | zero => exact ⟨.arrived, .nil .arrived 0, fun _ => rfl⟩
  | succ n ih =>
    obtain ⟨stage, hObeys, hStage⟩ := ih
    obtain ⟨new, found, hSteps, hAttempts⟩ := c.attempts_succ s n
    rw [hAttempts, hSteps.finished_eq]
    cases hFinished : (c.walked s n).finished with
    | false =>
      -- a walk that goes on has just entered its node, which is where a step begins
      rw [hStage hFinished] at hObeys
      obtain ⟨stage', hNew, hStage'⟩ := hSteps.obeys hFinished
      exact ⟨stage', hObeys.append hNew, fun hFound => hStage' (by simpa using hFound)⟩
    | true =>
      obtain ⟨rfl, rfl, hStays⟩ := hSteps.of_finished hFinished
      rw [hStays, List.append_nil]
      exact ⟨stage, hObeys, fun hFound => (by cases hFound)⟩

theorem given_eq (c : Cursor σ ν) (s : σ) (n : Nat) :
    c.given s n = ((c.attempts s n).filter c.enters).map c.reached := by
  induction n with
  | zero => rfl
  | succ n ih =>
    obtain ⟨new, found, hSteps, hAttempts⟩ := c.attempts_succ s n
    have hGiven : c.given s (n + 1) = c.given s n ++ (Walk.next c (c.walked s n)).1.toList := by
      rw [given, List.range_succ, List.filterMap_append, given]
      cases hNode : (Walk.next c (c.walked s n)).1 <;> simp [hNode]
    rw [hGiven, ih, hSteps.answers.toList_eq, hAttempts, List.filter_append, List.map_append]

theorem stays_of_finished {c : Cursor σ ν} {s : σ} {n k : Nat} (h : (c.walked s n).finished = true)
    (hk : n ≤ k) : c.walked s k = c.walked s n ∧ c.attempts s k = c.attempts s n := by
  induction hk with
  | refl => exact ⟨rfl, rfl⟩
  | @step k _ ih =>
    obtain ⟨hWalked, hSame⟩ := ih
    obtain ⟨new, found, hSteps, hAttempts⟩ := c.attempts_succ s k
    obtain ⟨rfl, -, hStays⟩ := hSteps.of_finished (hWalked ▸ h)
    exact ⟨hStays.trans hWalked, by rw [hAttempts, hSame, List.append_nil]⟩

theorem finished_of_none {c : Cursor σ ν} {s : σ} {n : Nat}
    (h : (Walk.next c (c.walked s n)).1 = none) : (c.walked s (n + 1)).finished = true := by
  obtain ⟨new, found, hSteps, -⟩ := c.attempts_succ s n
  rw [hSteps.next_eq] at h
  rw [hSteps.finished_eq]
  cases found with
  | false => rfl
  | true => cases h

theorem none_of_finished {c : Cursor σ ν} {s : σ} {n : Nat} (h : (c.walked s n).finished = true) :
    (Walk.next c (c.walked s n)).1 = none := by
  rw [Walk.next, Walk.advance, if_pos h]

/-- Whatever the moves of a cursor report, the depth of a walk is the number of moves to a first child less
the number of moves to a parent, counting those that succeed, at no moment less than none; siblings and
parents are tried below the start only; after a move to a parent no child is tried before a move to a
sibling has succeeded. A call attempts at most two moves for each level and one more. It ends with the
first that leads to a child or a sibling, and gives the node on which the cursor then is; so the nodes that
are given are those which these moves reach, and no others. After a call that gives nothing no move is
attempted, the depth stays, and nothing is given. -/
theorem walk_keeps_discipline (c : Cursor σ ν) (s : σ) (n : Nat) :
    (c.walked s n).depth + c.successes .parent (c.attempts s n) =
      c.successes .firstChild (c.attempts s n) ∧
    (∀ before a after, c.attempts s n = before ++ a :: after →
      c.successes .parent before ≤ c.successes .firstChild before ∧
      (a.1 ≠ .firstChild → c.successes .parent before < c.successes .firstChild before)) ∧
    (∀ before x between y after,
      c.attempts s n = before ++ (.parent, x) :: between ++ (.firstChild, y) :: after →
      (c.move .parent x).1 = true →
      ∃ z, (.nextSibling, z) ∈ between ∧ (c.move .nextSibling z).1 = true) ∧
    (∃ new, c.attempts s (n + 1) = c.attempts s n ++ new ∧ new.length ≤ 2 * (c.walked s n).depth + 1 ∧
      Answers c new (Walk.next c (c.walked s n)).1) ∧
    c.given s n = ((c.attempts s n).filter c.enters).map c.reached ∧
    ((Walk.next c (c.walked s n)).1 = none → ∀ k, n < k →
      c.attempts s k = c.attempts s (n + 1) ∧ (c.walked s k).depth = (c.walked s (n + 1)).depth ∧
      (Walk.next c (c.walked s k)).1 = none) := by
  obtain ⟨stage, hObeys, -⟩ := c.obeys_attempts s n
  obtain ⟨new, found, hSteps, hAttempts⟩ := c.attempts_succ s n
  refine ⟨?_, fun before a after hSplit => ?_, fun before x between y after hSplit hParent => ?_,
    ⟨new, hAttempts, hSteps.length_le, hSteps.answers⟩, c.given_eq s n, fun hNone k hk => ?_⟩
  · rw [hObeys.depth_eq, Nat.zero_add]
  · rw [hSplit] at hObeys
    exact ⟨hObeys.successes_le, hObeys.successes_lt⟩
  · rw [hSplit] at hObeys
    exact hObeys.exists_sibling_between hParent
  · have hFinished := finished_of_none hNone
    obtain ⟨hWalked, hSame⟩ := stays_of_finished hFinished hk
    exact ⟨hSame, by rw [hWalked], none_of_finished (hWalked ▸ hFinished)⟩

def scripted : Cursor (List Bool) Nat where
  node := List.length
  move _ script := (script.headD false, script.tail)

def shortScript : List Bool :=
  [true, false, true, false, false, true, true, true]

theorem walk_scripted :
    scripted.given shortScript 3 = [7, 5] ∧ (scripted.walked shortScript 3).depth = 0 ∧
    ∀ k, 2 < k → (scripted.attempts shortScript k).map Prod.fst =
        [.firstChild, .firstChild, .nextSibling, .firstChild, .nextSibling, .parent] ∧
      (Walk.next scripted (scripted.walked shortScript k)).1 = none := by
  obtain ⟨-, -, -, -, -, hEnd⟩ := walk_keeps_discipline scripted shortScript 2
  obtain ⟨hDepth, -, -, -, hGiven, -⟩ := walk_keeps_discipline scripted shortScript 3
  have hLevel : (scripted.walked shortScript 3).depth + 1 = 1 := hDepth
  refine ⟨hGiven, by omega, fun k hk => ?_⟩
  obtain ⟨hSame, -, hNone⟩ := hEnd rfl k hk
  exact ⟨by rw [hSame]; rfl, hNone⟩

end Cursor

end GrammarShapes
