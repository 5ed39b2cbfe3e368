import GrammarShapes.Proofs.Tree.Links
import Mathlib.Data.List.Induction

set_option autoImplicit false

/-! # What steps build

Steps build a tree exactly if they are its events in depth-first order: a leaf is a token, and a node starts
before the events of its children and is finished behind them. The invariant of building says of the
progress which steps have led to it: the events of the open nodes, outermost first, each with those of the
finished trees below it. Otherwise the first step that does not fit decides the error. A step does not fit
if nothing is open and it finishes a node or starts a second root.
-/

namespace GrammarShapes

namespace BuildStep

def added? : BuildStep → Option (String × Range)
  | .start kind range | .token kind range => some (kind, range)
  | .finish => none

def isStart : BuildStep → Bool
  | .start _ _ => true
  | _ => false

def isFinish : BuildStep → Bool
  | .finish => true
  | _ => false

def added (steps : List BuildStep) : List (String × Range) :=
  steps.filterMap added?

def starts (steps : List BuildStep) : Nat :=
  steps.countP isStart

def finishes (steps : List BuildStep) : Nat :=
  steps.countP isFinish

/-- The error of a step behind others that fit: it finishes a node or adds a second root while there are as
many finished nodes as started ones. -/
def misuse? (before : List BuildStep) : BuildStep → Option TreeError
  | .finish => if starts before = finishes before then some .noOpenNode else none
  | .start kind _ | .token kind _ =>
      if starts before = finishes before ∧ added before ≠ [] then some (.secondRoot kind) else none

def Orderly (steps : List BuildStep) : Prop :=
  ∀ before s after, steps = before ++ s :: after → misuse? before s = none

/-- `Faulty steps e`: the steps build no tree, and `e` tells why. -/
inductive Faulty : List BuildStep → TreeError → Prop where
  | misused {before after : List BuildStep} {s : BuildStep} {e : TreeError} (hBefore : Orderly before)
      (hMisuse : misuse? before s = some e) : Faulty (before ++ s :: after) e
  | empty {steps : List BuildStep} (hOrderly : Orderly steps) (hNone : added steps = []) :
      Faulty steps .empty
  | unclosed {steps : List BuildStep} (hOrderly : Orderly steps) (hSome : added steps ≠ [])
      (hOpen : finishes steps < starts steps) : Faulty steps (.unclosed (starts steps - finishes steps))

variable {steps before after : List BuildStep} {s : BuildStep}

theorem length_eq (steps : List BuildStep) : steps.length = (added steps).length + finishes steps := by
  induction steps with
  | nil => rfl
  | cons s rest ih =>
    rw [added, finishes] at ih ⊢
    rw [List.length_cons, ih, List.filterMap_cons, List.countP_cons]
    cases s <;> simp [added?, isFinish] <;> omega

theorem starts_le (steps : List BuildStep) : starts steps ≤ (added steps).length := by
  induction steps with
  | nil => exact Nat.le_refl 0
  | cons s rest ih =>
    rw [added, starts] at ih ⊢
    rw [List.filterMap_cons, List.countP_cons]
    cases s <;> simp [added?, isStart] <;> omega

theorem orderly_nil : Orderly [] := by
  intro before s after h
  cases before <;> cases h

theorem orderly_concat_iff : Orderly (steps ++ [s]) ↔ Orderly steps ∧ misuse? steps s = none := by
  constructor
  · intro h
    refine ⟨fun before u after hSplit => h before u (after ++ [s]) ?_, h steps s [] rfl⟩
    rw [hSplit, List.append_assoc, List.cons_append]
  · rintro ⟨hSteps, hLast⟩ before u after hSplit
    rcases List.eq_nil_or_concat after with rfl | ⟨front, last, rfl⟩
    · obtain ⟨rfl, hu⟩ := List.append_inj' hSplit rfl
      cases hu
      exact hLast
    · rw [List.concat_eq_append, ← List.cons_append, ← List.append_assoc] at hSplit
      exact hSteps before u front (List.append_inj' hSplit rfl).1

end BuildStep

namespace SyntaxTree

/-- `Traces steps ts`: the steps are the events of the trees in depth-first order, whatever the numbers of
the nodes. -/
inductive Traces : List BuildStep → List SyntaxTree → Prop where
  | nil : Traces [] []
  | token {id : Nat} {kind : String} {range : Range} {rest : List BuildStep} {ts : List SyntaxTree}
      (hRest : Traces rest ts) : Traces (.token kind range :: rest) (.leaf ⟨id, kind, range⟩ :: ts)
  | group {id : Nat} {kind : String} {range : Range} {inner rest : List BuildStep}
      {children ts : List SyntaxTree} (hInner : Traces inner children) (hRest : Traces rest ts) :
      Traces (.start kind range :: (inner ++ .finish :: rest)) (.node ⟨id, kind, range⟩ children :: ts)

theorem Traces.append {first second : List BuildStep} {ts us : List SyntaxTree} (h : Traces first ts)
    (hSecond : Traces second us) : Traces (first ++ second) (ts ++ us) := by
  induction h with
  | nil => exact hSecond
  | token _ ih => exact .token ih
  | group hInner _ _ ih =>
    rw [List.cons_append, List.append_assoc, List.cons_append]
    exact .group hInner ih

/-- `TracesOpen steps os`: the steps are the events of the open nodes, outermost first, and of the finished
trees below them. -/
inductive TracesOpen : List BuildStep → List OpenNode → Prop where
  | nil : TracesOpen [] []
  | cons {id : Nat} {kind : String} {range : Range} {before own : List BuildStep}
      {finished : List SyntaxTree} {outer : List OpenNode} (hOuter : TracesOpen before outer)
      (hOwn : Traces own finished.reverse) :
      TracesOpen (before ++ .start kind range :: own) (⟨⟨id, kind, range⟩, finished⟩ :: outer)

theorem TracesOpen.add {steps more : List BuildStep} {o : OpenNode} {outer : List OpenNode} {t : SyntaxTree}
    (h : TracesOpen steps (o :: outer)) (hMore : Traces more [t]) :
    TracesOpen (steps ++ more) (o.add t :: outer) := by
  cases h with
  | cons hOuter hOwn =>
    rw [List.append_assoc, List.cons_append]
    refine .cons hOuter ?_
    rw [List.reverse_cons]
    exact hOwn.append hMore

theorem TracesOpen.exists_close {steps : List BuildStep} {o : OpenNode} {outer : List OpenNode}
    (h : TracesOpen steps (o :: outer)) :
    ∃ before own, steps ++ [.finish] = before ++ own ∧ TracesOpen before outer ∧ Traces own [o.close] := by
  cases h with
  | @cons id kind range before own _ _ hOuter hOwn =>
    refine ⟨before, .start kind range :: (own ++ [.finish]), ?_, hOuter, .group hOwn .nil⟩
    rw [List.append_assoc, List.cons_append]

end SyntaxTree

namespace Progress

open BuildStep SyntaxTree

def opened : Progress → Nat
  | .building _ _ outer => outer.length + 1
  | _ => 0

theorem nodes_eq_nil_iff {p : Progress} : p.nodes = [] ↔ p = .empty := by
  cases p with
  | empty => simp [nodes]
  | building count inner outer => simp [nodes, OpenNode.nodes]
  | complete t => simp [nodes, nodes_eq]

inductive Traced : Progress → List BuildStep → Prop where
  | empty : Traced .empty []
  | building {count : Nat} {inner : OpenNode} {outer : List OpenNode} {steps : List BuildStep}
      (h : TracesOpen steps (inner :: outer)) : Traced (.building count inner outer) steps
  | complete {t : SyntaxTree} {steps : List BuildStep} (h : Traces steps [t]) : Traced (.complete t) steps

variable {p p' : Progress} {s : BuildStep} {steps : List BuildStep}

theorem Traced.step (h : p.Traced steps) (hStep : p.step s = .ok p') : p'.Traced (steps ++ [s]) := by
  cases s with
  | start kind range =>
    cases h with
    | empty =>
      cases hStep
      exact .building (.cons .nil .nil)
    | building hOpen =>
      cases hStep
      exact .building (.cons hOpen .nil)
    | complete _ => cases hStep
  | token kind range =>
    cases h with
    | empty =>
      cases hStep
      exact .complete (.token .nil)
    | building hOpen =>
      cases hStep
      exact .building (hOpen.add (.token .nil))
    | complete _ => cases hStep
  | finish =>
    cases h with
    | empty => cases hStep
    | @building count inner outer _ hOpen =>
      -- the innermost open node becomes a tree below the next one, or the whole tree
      obtain ⟨before, own, hSteps, hOuter, hOwn⟩ := hOpen.exists_close
      rw [hSteps]
      cases outer with
      | nil =>
        cases hStep
        cases hOuter
        exact .complete hOwn
      | cons next outer =>
        cases hStep
        exact .building (hOuter.add hOwn)
    | complete _ => cases hStep

theorem opened_step (h : p.step s = .ok p') :
    p'.opened + finishes [s] = p.opened + starts [s] := by
  cases s with
  | start kind range | token kind range =>
    cases p with
    | empty | building _ _ _ =>
      cases h
      rfl
    | complete t => cases h
  | finish =>
    cases p with
    | empty | complete _ => cases h
    | building count inner outer =>
      cases outer <;>
      · cases h
        rfl

structure Reached (p : Progress) (steps : List BuildStep) : Prop where
  traced : p.Traced steps
  numbered : p.Numbered
  nodes_eq : p.nodes = (added steps).mapIdx fun id n => ⟨id, n.1, n.2⟩
  starts_eq : starts steps = finishes steps + p.opened

theorem Reached.added_eq_nil_iff (h : p.Reached steps) : added steps = [] ↔ p = .empty := by
  rw [← nodes_eq_nil_iff, h.nodes_eq, List.mapIdx_eq_nil_iff]

theorem Reached.step (h : p.Reached steps) (hStep : p.step s = .ok p') :
    p'.Reached (steps ++ [s]) where
  traced := h.traced.step hStep
  numbered := h.numbered.step hStep
  nodes_eq := by
    have hCount : p.count = (added steps).length := by
      rw [h.numbered.count_eq, h.nodes_eq, List.length_mapIdx]
    have hAdded : added (steps ++ [s]) = added steps ++ added [s] := List.filterMap_append
    rw [nodes_step hStep, h.nodes_eq, hCount, hAdded, List.mapIdx_append]
    cases s <;> simp [node?, added?, added]
  starts_eq := by
    have hOpened := opened_step hStep
    have hStarts := h.starts_eq
    simp only [starts, finishes, List.countP_append] at *
    omega

theorem Reached.step_eq_error_iff (h : p.Reached steps) {e : TreeError} :
    p.step s = .error e ↔ misuse? steps s = some e := by
  have hEmpty := h.added_eq_nil_iff
  have hStarts := h.starts_eq
  cases p with
  | empty =>
    have hIdle : starts steps = finishes steps := hStarts
    cases s <;> simp [Progress.step, start, token, finish, misuse?, hIdle, hEmpty]
  | building count inner outer =>
    have hBusy : starts steps ≠ finishes steps := by
      simp only [opened] at hStarts
      omega
    cases outer <;> cases s <;> simp [Progress.step, start, token, finish, misuse?, hBusy]
  | complete t =>
    have hIdle : starts steps = finishes steps := hStarts
    cases s <;> simp [Progress.step, start, token, finish, misuse?, hIdle, hEmpty]

theorem Reached.exists_step_iff (h : p.Reached steps) :
    (∃ p', p.step s = .ok p') ↔ misuse? steps s = none := by
  cases hStep : p.step s with
  | ok p' =>
    refine ⟨fun _ => Option.eq_none_iff_forall_ne_some.mpr fun e he => ?_, fun _ => ⟨p', rfl⟩⟩
    rw [h.step_eq_error_iff.mpr he] at hStep
    cases hStep
  | error e => simp [h.step_eq_error_iff.mp hStep]

end Progress

namespace TreeBuilder

open BuildStep

variable {p : Progress} {steps : List BuildStep}

theorem run_append (b : TreeBuilder) (first second : List BuildStep) :
    b.run (first ++ second) = (b.run first).run second :=
  List.foldl_append

theorem run_concat (b : TreeBuilder) (steps : List BuildStep) (s : BuildStep) :
    b.run (steps ++ [s]) = (b.run steps).step s :=
  b.run_append steps [s]

theorem reached_run (h : new.run steps = .ok p) : p.Reached steps := by
  induction steps using List.reverseRecOn generalizing p with
  | nil =>
    cases h
    exact ⟨.empty, rfl, rfl, rfl⟩
  | append_singleton steps s ih =>
    rw [run_concat] at h
    cases hRun : new.run steps with
    | error e =>
      rw [hRun] at h
      cases h
    | ok before =>
      rw [hRun] at h
      exact (ih hRun).step h

theorem run_error (e : TreeError) (steps : List BuildStep) : run (.error e) steps = .error e := by
  induction steps with
  | nil => rfl
  | cons s rest ih => exact ih

/-- Building goes on as long as the steps fit and fails at the first that does not. -/
theorem run_new (steps : List BuildStep) :
    (Orderly steps ∧ ∃ p, new.run steps = .ok p) ∨
    ∃ before s after e, steps = before ++ s :: after ∧ Orderly before ∧ misuse? before s = some e ∧
      new.run steps = .error e := by
  -- what fits is told by all steps before, so the steps are taken from the end
  induction steps using List.reverseRecOn with
  | nil => exact Or.inl ⟨orderly_nil, .empty, rfl⟩
  | append_singleton steps s ih =>
    rw [run_concat]
    rcases ih with ⟨hOrderly, p, hRun⟩ | ⟨before, u, after, e, hSplit, hBefore, hMisuse, hRun⟩
    · have hReached := reached_run hRun
      rw [hRun]
      cases hMisuse : misuse? steps s with
      | none =>
        exact Or.inl ⟨orderly_concat_iff.mpr ⟨hOrderly, hMisuse⟩, hReached.exists_step_iff.mpr hMisuse⟩
      | some e =>
        exact Or.inr ⟨steps, s, [], e, rfl, hOrderly, hMisuse, hReached.step_eq_error_iff.mpr hMisuse⟩
    · refine Or.inr ⟨before, u, after ++ [s], e, ?_, hBefore, hMisuse, ?_⟩
      · rw [hSplit, List.append_assoc, List.cons_append]
      · rw [hRun]
        rfl

theorem exists_reached (h : Orderly steps) : ∃ p, new.run steps = .ok p ∧ p.Reached steps := by
  rcases run_new steps with ⟨-, p, hRun⟩ | ⟨before, s, after, e, hSplit, -, hMisuse, -⟩
  · exact ⟨p, hRun, reached_run hRun⟩
  · rw [h before s after hSplit] at hMisuse
    cases hMisuse

theorem run_eq_error {before after : List BuildStep} {s : BuildStep} {e : TreeError} (h : Orderly before)
    (hMisuse : misuse? before s = some e) : new.run (before ++ s :: after) = .error e := by
  obtain ⟨p, hRun, hReached⟩ := exists_reached h
  have hStep : step (.ok p) s = .error e := hReached.step_eq_error_iff.mpr hMisuse
  rw [run_append, hRun]
  exact (congrArg (run · after) hStep).trans (run_error e after)

end TreeBuilder

namespace SyntaxTree

open BuildStep

variable {count : Nat} {n : Node} {children ts : List SyntaxTree} {t : SyntaxTree} {steps : List BuildStep}

def NumberedFrom (count : Nat) (ts : List SyntaxTree) : Prop :=
  (ts.flatMap nodes).map Node.id = List.range' count (sizeAll ts)

theorem length_flatMap_nodes (ts : List SyntaxTree) : (ts.flatMap nodes).length = sizeAll ts := by
  induction ts with
  | nil => rfl
  | cons t ts ih => rw [List.flatMap_cons, List.length_append, length_nodes, ih, sizeAll]

theorem numberedFrom_cons_iff :
    NumberedFrom count (.node n children :: ts) ↔
      n.id = count ∧ NumberedFrom (count + 1) children ∧ NumberedFrom (count + 1 + sizeAll children) ts := by
  have hRange : List.range' count (sizeAll (.node n children :: ts)) =
      count :: (List.range' (count + 1) (sizeAll children) ++
        List.range' (count + 1 + sizeAll children) (sizeAll ts)) := by
    rw [List.range'_append_1, ← List.range'_succ, sizeAll, size]
    congr 1
    omega
  have hLength : ((children.flatMap nodes).map Node.id).length =
      (List.range' (count + 1) (sizeAll children)).length := by
    rw [List.length_map, length_flatMap_nodes, List.length_range']
  rw [NumberedFrom, hRange, List.flatMap_cons, nodes_eq, root, SyntaxTree.children, List.cons_append,
    List.map_cons, List.map_append, List.cons.injEq, NumberedFrom, NumberedFrom]
  refine and_congr_right fun _ => ⟨fun h => List.append_inj h hLength, ?_⟩
  rintro ⟨hChildren, hRest⟩
  rw [hChildren, hRest]

theorem numberedFrom_zero_iff : NumberedFrom 0 [t] ↔ t.Numbered := by
  rw [NumberedFrom, Numbered, List.flatMap_singleton, List.range_eq_range', sizeAll, sizeAll, Nat.add_zero]

theorem Traces.exists_numberedFrom (h : Traces steps ts) (count : Nat) :
    ∃ us, Traces steps us ∧ us.length = ts.length ∧ NumberedFrom count us := by
  induction h generalizing count with
  | nil => exact ⟨[], .nil, rfl, rfl⟩
  | token _ ih =>
    obtain ⟨us, hTraces, hLength, hIds⟩ := ih (count + 1)
    exact ⟨_, .token hTraces, congrArg Nat.succ hLength, numberedFrom_cons_iff.mpr ⟨rfl, rfl, hIds⟩⟩
  | group _ _ ihInner ihRest =>
    obtain ⟨inner, hInner, -, hInnerIds⟩ := ihInner (count + 1)
    obtain ⟨us, hTraces, hLength, hIds⟩ := ihRest (count + 1 + sizeAll inner)
    exact ⟨_, .group hInner hTraces, congrArg Nat.succ hLength,
      numberedFrom_cons_iff.mpr ⟨rfl, hInnerIds, hIds⟩⟩

theorem Traces.run_building (h : Traces steps ts) (hIds : NumberedFrom count ts) (root : Node)
    (finished : List SyntaxTree) (outer : List OpenNode) :
    TreeBuilder.run (.ok (.building count ⟨root, finished⟩ outer)) steps =
      .ok (.building (count + sizeAll ts) ⟨root, ts.reverse ++ finished⟩ outer) := by
  induction h generalizing count root finished outer with
  | nil => rfl
  | @token id kind range rest ts _ ih =>
    obtain ⟨rfl, -, hRest⟩ := numberedFrom_cons_iff.mp hIds
    have hSize : sizeAll (.leaf ⟨id, kind, range⟩ :: ts) = 1 + sizeAll ts := by
      rw [sizeAll, leaf, size, sizeAll, Nat.zero_add]
    rw [List.reverse_cons, List.append_assoc, hSize, ← Nat.add_assoc]
    exact ih hRest root (.leaf ⟨id, kind, range⟩ :: finished) outer
  | @group id kind range inner rest children ts _ _ ihInner ihRest =>
    obtain ⟨rfl, hInner, hRest⟩ := numberedFrom_cons_iff.mp hIds
    have hSize : id + sizeAll (.node ⟨id, kind, range⟩ children :: ts) =
        id + 1 + sizeAll children + sizeAll ts := by
      rw [sizeAll, size]
      omega
    have hClose : OpenNode.close ⟨⟨id, kind, range⟩, children.reverse ++ []⟩ =
        .node ⟨id, kind, range⟩ children := by
      rw [OpenNode.close, List.append_nil, List.reverse_reverse]
    have hStart := ihInner hInner ⟨id, kind, range⟩ [] (⟨root, finished⟩ :: outer)
    have hFinish := ihRest hRest root (.node ⟨id, kind, range⟩ children :: finished) outer
    rw [List.reverse_cons, List.append_assoc, hSize, ← List.cons_append, TreeBuilder.run_append]
    rw [← hClose] at hFinish ⊢
    exact (congrArg (TreeBuilder.run · (.finish :: rest)) hStart).trans hFinish

theorem ofSteps_of_traces (h : Traces steps [t]) (hNumbered : t.Numbered) : ofSteps steps = .ok t := by
  have hIds := numberedFrom_zero_iff.mpr hNumbered
  cases h with
  | token hRest =>
    cases hRest
    obtain ⟨rfl, -, -⟩ := numberedFrom_cons_iff.mp hIds
    rfl
  | @group id kind range inner _ children _ hInner hRest =>
    cases hRest
    obtain ⟨rfl, hChildren, -⟩ := numberedFrom_cons_iff.mp hIds
    have hStart := hInner.run_building hChildren ⟨0, kind, range⟩ [] []
    have hRun : TreeBuilder.new.run (.start kind range :: inner) = _ := hStart
    rw [ofSteps, ← List.cons_append, TreeBuilder.run_append, hRun, List.append_nil]
    exact congrArg (fun ts => Except.ok (SyntaxTree.node ⟨0, kind, range⟩ ts)) (List.reverse_reverse children)

theorem reached_of_ofSteps (h : ofSteps steps = .ok t) : (Progress.complete t).Reached steps := by
  cases hRun : TreeBuilder.new.run steps with
  | error e =>
    rw [ofSteps, hRun] at h
    cases h
  | ok p =>
    have hReached := TreeBuilder.reached_run hRun
    rw [ofSteps, hRun] at h
    cases p with
    | empty | building _ _ _ => cases h
    | complete tree =>
      cases h
      exact hReached

theorem ofSteps_eq_ok_iff : ofSteps steps = .ok t ↔ Traces steps [t] ∧ t.Numbered := by
  refine ⟨fun h => ?_, fun h => ofSteps_of_traces h.1 h.2⟩
  cases (reached_of_ofSteps h).traced with
  | complete hTraces => exact ⟨hTraces, numbered_of_ofSteps h⟩

theorem exists_ofSteps_iff : (∃ t, ofSteps steps = .ok t) ↔ ∃ t, Traces steps [t] := by
  constructor
  · rintro ⟨t, h⟩
    exact ⟨t, (ofSteps_eq_ok_iff.mp h).1⟩
  · rintro ⟨t, h⟩
    obtain ⟨us, hTraces, hLength, hIds⟩ := h.exists_numberedFrom 0
    obtain ⟨u, rfl⟩ := List.length_eq_one_iff.mp hLength
    exact ⟨u, ofSteps_of_traces hTraces (numberedFrom_zero_iff.mp hIds)⟩

theorem ofSteps_eq_error_iff {e : TreeError} : ofSteps steps = .error e ↔ Faulty steps e := by
  constructor
  · intro h
    rcases TreeBuilder.run_new steps with
      ⟨hOrderly, p, hRun⟩ | ⟨before, s, after, e', rfl, hBefore, hMisuse, hRun⟩
    · have hReached := TreeBuilder.reached_run hRun
      have hAdded := hReached.added_eq_nil_iff
      have hStarts := hReached.starts_eq
      rw [ofSteps, hRun] at h
      cases p with
      | empty =>
        cases h
        exact .empty hOrderly (hAdded.mpr rfl)
      | building count inner outer =>
        cases h
        have hOpen : outer.length + 1 = starts steps - finishes steps := by
          simp only [Progress.opened] at hStarts
          omega
        rw [hOpen]
        exact .unclosed hOrderly (fun hNone => by cases hAdded.mp hNone) (by omega)
      | complete t => cases h
    · rw [ofSteps, hRun] at h
      cases h
      exact .misused hBefore hMisuse
  · intro h
    cases h with
    | misused hBefore hMisuse =>
      rw [ofSteps, TreeBuilder.run_eq_error hBefore hMisuse]
      rfl
    | empty hOrderly hNone =>
      obtain ⟨p, hRun, hReached⟩ := TreeBuilder.exists_reached hOrderly
      rw [ofSteps, hRun, hReached.added_eq_nil_iff.mp hNone]
      rfl
    | unclosed hOrderly hSome hOpen =>
      obtain ⟨p, hRun, hReached⟩ := TreeBuilder.exists_reached hOrderly
      have hStarts := hReached.starts_eq
      rw [ofSteps, hRun]
      cases p with
      | empty | complete _ =>
        simp only [Progress.opened] at hStarts
        omega
      | building count inner outer =>
        have hCount : starts steps - finishes steps = outer.length + 1 := by
          simp only [Progress.opened] at hStarts
          omega
        rw [hCount]
        rfl

/-- Steps build a tree if and only if they are the events of one tree in depth-first order, and they build
that tree, with one node for each start and each token, numbered in this order. Node zero is the root and
alone has no parent; every other node is a child once, of its parent, and all children stand in order.
Otherwise the first step that does not fit decides the error. Without such a step no node was added or
some are open, as many as there are more starts than finishes. -/
theorem outcome_of_steps (steps : List BuildStep) :
    ((∃ t, ofSteps steps = .ok t) ↔ ∃ t, Traces steps [t]) ∧
    (∀ t, ofSteps steps = .ok t ↔ Traces steps [t] ∧ t.Numbered) ∧
    (∀ t, ofSteps steps = .ok t →
      t.nodes = (added steps).mapIdx (fun id n => ⟨id, n.1, n.2⟩) ∧
      t.entries.map (·.2.root) = t.nodes ∧
      t.entries[0]? = some (none, t) ∧
      ∀ i parent s, t.entries[i]? = some (parent, s) → Linked t i parent s) ∧
    ∀ e, ofSteps steps = .error e ↔ Faulty steps e := by
  refine ⟨exists_ofSteps_iff, fun t => ofSteps_eq_ok_iff, fun t h => ?_, fun e => ofSteps_eq_error_iff⟩
  refine ⟨(reached_of_ofSteps h).nodes_eq, ?_, ?_, fun i parent s => (numbered_of_ofSteps h).linked⟩
  · rw [nodes, ← map_snd_entries, List.map_map]
    rfl
  · rw [entries, entriesOnto_eq]
    rfl

example : ofSteps [.start "a" {}, .finish, .token "b" {}, .finish] = .error (.secondRoot "b") := rfl

end SyntaxTree

end GrammarShapes
