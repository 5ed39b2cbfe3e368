import GrammarShapes.Proofs.Expansion.Course
import GrammarShapes.Proofs.Grammar.References

set_option autoImplicit false

/-! # Cut cycles

The record of a cut cycle says that a rule is already being expanded. It is made where what is remembered of
the rule is empty: while the inlining of the rule is in progress, but also after it has returned without
shapes. So the record tells the truth unless a rule without shapes is met again. A rule whose body shows
something on its own always has shapes.
-/

namespace GrammarShapes

/-- Whether the record of a cut cycle is made at exactly those references to the rule that are met while its
inlining is in progress. -/
def CutsInProgress (g : Grammar) (o : Options) (r : Rule) (name : String) : Prop :=
  ∀ before cut after, courseOfFresh g o r = before ++ .met name cut :: after →
    (cut = true ↔ InProgress before name)

variable {g : Grammar} {o : Options} {name : String}

section ShapesOfItsOwn

def ShowsSome (g : Grammar) (o : Options) (r : Rule) : Prop :=
  ∃ t ∈ r.preorder, ∃ shape, Shows g o t [shape]

theorem ShowsSome.of_not_shown {r : Rule} (h : ShowsSome g o r) (hNot : ∀ shape, ¬ Shows g o r [shape]) :
    ∃ c ∈ r.children, ShowsSome g o c := by
  obtain ⟨t, ht, shape, hShape⟩ := h
  rw [Rule.preorder_eq, List.mem_cons, List.mem_flatMap] at ht
  rcases ht with rfl | ⟨c, hc, ht⟩
  · exact absurd hShape (hNot shape)
  · exact ⟨c, hc, t, ht, shape, hShape⟩

/-- What is shown is not lost, whatever is remembered, for an alias or a field keeps one shape. -/
theorem Run.ne_nil_of_showsSome {m m' : Memo} {rs : List Rule} {shapes : List Shape} {r : Rule}
    (h : Run g o m rs shapes m') (hr : r ∈ rs) (hShows : ShowsSome g o r) : shapes ≠ [] := by
  induction h generalizing r with
  | nil => cases hr
  | @shown _ _ t _ own _ hOwn _ ih =>
    rcases List.mem_cons.mp hr with rfl | hr
    · apply List.append_ne_nil_of_left_ne_nil
      rintro rfl
      obtain ⟨c, hc, -⟩ := hShows.of_not_shown fun shape hShape => nomatch hOwn.unique hShape
      cases hOwn with
      | token => cases hc
    · exact List.append_ne_nil_of_right_ne_nil _ (ih hr hShows)
  | known hHidden _ _ ih | inlined hHidden _ _ _ _ _ ih =>
    rcases List.mem_cons.mp hr with rfl | hr
    · obtain ⟨c, hc, -⟩ := hShows.of_not_shown fun shape hShape => nomatch hShape.eq_nil_of_hidden hHidden
      cases hc
    · exact List.append_ne_nil_of_right_ne_nil _ (ih hr hShows)
  | single hSingle _ _ ihOwn ih =>
    rcases List.mem_cons.mp hr with rfl | hr
    · obtain ⟨c, hc, hBelow⟩ := hShows.of_not_shown fun shape hShape => by
        rw [hShape.isSingleValued] at hSingle
        cases hSingle
      apply List.append_ne_nil_of_left_ne_nil
      simpa using ihOwn hc hBelow
    · exact List.append_ne_nil_of_right_ne_nil _ (ih hr hShows)
  | transparent hTransparent _ _ ihOwn ih =>
    rcases List.mem_cons.mp hr with rfl | hr
    · obtain ⟨c, hc, hBelow⟩ := hShows.of_not_shown fun shape hShape => by
        rw [hShape.isTransparent] at hTransparent
        cases hTransparent
      exact List.append_ne_nil_of_left_ne_nil (ihOwn hc hBelow) _
    · exact List.append_ne_nil_of_right_ne_nil _ (ih hr hShows)

theorem inline_ne_nil {room : Nat} {body : Rule} (hShows : ShowsSome g o body) (e : Expander) :
    (Expansion.inline (expandWithin g o room) name body e).1 ≠ .ok [] := by
  intro hNil
  obtain ⟨own, e₁, hOwn, hEmpty, -⟩ := Expansion.inline_eq_ok (Prod.ext hNil rfl)
  apply (Run.of_expandWithin hOwn).ne_nil_of_showsSome List.mem_cons_self hShows
  simpa [List.eq_nil_iff_forall_not_mem, mem_firstSeen_iff] using hEmpty.symm

theorem notMem_row {expand : Rule → Expansion} {course : Rule → Course} {item : Happening}
    (hParts : ∀ r e, item ∉ course r e) (rs : List Rule) (e : Expander) :
    item ∉ Course.row expand course rs e := by
  induction rs generalizing e with
  | nil => exact List.not_mem_nil
  | cons r rest ih =>
    rw [Course.row, List.mem_append, not_or]
    refine ⟨hParts r e, ?_⟩
    split
    · exact List.not_mem_nil
    · exact ih _

theorem returned_notMem_course {body : Rule} (hBody : g.rules.get? name = some body)
    (hShows : ShowsSome g o body) (room : Nat) (r : Rule) (e : Expander) :
    .returned name (.ok []) ∉ courseWithin g o room r e := by
  induction room generalizing r e with
  | zero => exact List.not_mem_nil
  | succ room ih =>
    rw [courseWithin]
    cases hSymbol : r.symbol? with
    | none =>
      rw [nodeCourse_of_symbol?_eq_none hSymbol]
      exact notMem_row ih _ _
    | some other =>
      obtain rfl : r = .symbol other := Rule.eq_symbol_of_symbol? hSymbol
      rw [nodeCourse]
      rcases symbolCourse_cases g o (expandWithin g o room) (courseWithin g o room) other e.enter with
        ⟨hCourse, -⟩ | ⟨own, -, hCourse, -⟩ | ⟨inner, -, hInner, hCourse, -⟩
      · rw [hCourse]
        exact List.not_mem_nil
      · simp [hCourse]
      · rw [hCourse]
        simp only [Course.inlining, List.mem_cons, List.mem_append, List.not_mem_nil, reduceCtorEq,
          false_or, or_false, ih, Happening.returned.injEq, not_and]
        rintro rfl hNil
        obtain rfl : body = inner := Option.some.inj (hBody.symm.trans hInner)
        exact inline_ne_nil hShows e.enter hNil.symm

end ShapesOfItsOwn

/-- The log holds the entries that the course of the expansion leaves, however it ends. The record of a cut
cycle is made at a reference to a hidden rule if and only if the inlining of the rule is in progress or has
returned without shapes. So it tells whether the rule is in progress exactly if no reference to the rule is met
after its inlining has returned without shapes, and that is so of every rule whose body shows something. -/
theorem cut_recorded_iff (g : Grammar) (o : Options) (r : Rule) :
    logOfFresh g o r = (courseOfFresh g o r).filterMap Happening.record? ∧
    (∀ before name cut after, courseOfFresh g o r = before ++ .met name cut :: after →
      (cut = true ↔ InProgress before name ∨ .returned name (.ok []) ∈ before)) ∧
    (∀ name, CutsInProgress g o r name ↔
      ∀ before cut after, courseOfFresh g o r = before ++ .met name cut :: after →
        .returned name (.ok []) ∉ before) ∧
    ∀ name body, g.rules.get? name = some body → ShowsSome g o body → CutsInProgress g o r name := by
  have hCuts : ∀ before name cut after, courseOfFresh g o r = before ++ .met name cut :: after →
      (cut = true ↔ InProgress before name ∨ .returned name (.ok []) ∈ before) :=
    cutsAfter_courseOfFresh g o r
  have hTells : ∀ name, CutsInProgress g o r name ↔
      ∀ before cut after, courseOfFresh g o r = before ++ .met name cut :: after →
        .returned name (.ok []) ∉ before := by
    intro name
    constructor
    · intro hProgress before cut after hSplit hReturned
      have hCut := (hCuts before name cut after hSplit).mpr (Or.inr hReturned)
      exact ((hProgress before cut after hSplit).mp hCut).2 _ hReturned
    · intro hNever before cut after hSplit
      rw [hCuts before name cut after hSplit, or_iff_left (hNever before cut after hSplit)]
  refine ⟨logOfFresh_eq_filterMap g o r, hCuts, hTells, fun name body hBody hShows => ?_⟩
  rw [hTells]
  intro before cut after hSplit hReturned
  apply returned_notMem_course hBody hShows maxDepth r {}
  change _ ∈ courseOfFresh g o r
  rw [hSplit]
  exact List.mem_append_left _ hReturned

def hollow : Grammar :=
  Grammar.withRule {} "_e" .blank

/-- The second reference to the rule is met when its inlining has returned, and the record is made. -/
theorem not_forall_cutsInProgress :
    ¬ ∀ (g : Grammar) (o : Options) (r : Rule) (name : String), CutsInProgress g o r name := by
  intro h
  have hCourse : courseOfFresh hollow {} (.sequence [.symbol "_e", .symbol "_e"]) =
      [.met "_e" false, .inlined "_e", .returned "_e" (.ok [])] ++ .met "_e" true :: [] := rfl
  have hOpen := (h hollow {} _ "_e" _ _ _ hCourse).mp rfl
  exact hOpen.2 (.ok []) (by simp)

end GrammarShapes
