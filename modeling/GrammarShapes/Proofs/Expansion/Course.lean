import GrammarShapes.Proofs.Expansion.Records

set_option autoImplicit false

/-! # Courses of expansion

The course of an expansion is what happens in it, in order: the references to hidden rules that are met, and
the beginnings and ends of their inlinings. The log holds what of this leaves an entry.

What is remembered of a rule tells of the course so far: `Standing` says that the inlining of the rule is in
progress or has returned without shapes if that is empty, and else has returned with the shapes that are
remembered. `Recounts` carries this through an expansion, together with the log and with the references at
which the record of a cut cycle is made.
-/

namespace GrammarShapes

inductive Happening where
  /-- A reference to a hidden rule is met. If `cut`, the record of a cut cycle is made at it. -/
  | met (name : String) (cut : Bool)
  | inlined (name : String)
  | returned (name : String) (outcome : Except SchemaError (List Shape))

def Happening.record? : Happening → Option (Level × String)
  | .met name true =>
      some (.trace, "hidden rule " ++ name ++ " already being expanded, cutting cycle")
  | .met _ false => none
  | .inlined name => some (.trace, "inlining hidden rule " ++ name)
  | .returned _ _ => none

abbrev Course :=
  Expander → List Happening

namespace Course

def row (expand : Rule → Expansion) (course : Rule → Course) : List Rule → Course
  | [], _ => []
  | r :: rest, e =>
      course r e ++
        match expand r e with
        | (.error _, _) => []
        | (.ok _, e) => row expand course rest e

def inlining (expand : Rule → Expansion) (course : Rule → Course) (name : String) (body : Rule) :
    Course := fun e =>
  .inlined name :: course body ((e.remember name []).report (.ruleInlined name)) ++
    [.returned name (Expansion.inline expand name body e).1]

end Course

section Courses

variable (g : Grammar) (o : Options)

def symbolCourse (expand : Rule → Expansion) (course : Rule → Course) (name : String) : Course := fun e =>
  if !g.resolves name then []
  else if !o.isHidden name then []
  else
    match e.memo.lookup name with
    | some shapes => [.met name shapes.isEmpty]
    | none =>
        match g.rules.get? name with
        | none => []
        | some body => .met name false :: Course.inlining expand course name body e

def nodeCourse (expand : Rule → Expansion) (course : Rule → Course) : Rule → Course
  | .symbol name => symbolCourse g o expand course name
  | r => Course.row expand course r.children

def courseWithin : Nat → Rule → Course
  | 0, _, _ => []
  | room + 1, r, e => nodeCourse g o (expandWithin g o room) (courseWithin room) r e.enter

def courseOfFresh (r : Rule) : List Happening :=
  courseWithin g o maxDepth r {}

end Courses

variable {g : Grammar} {o : Options} {e e₁ : Expander} {past hs more : List Happening} {name : String}

theorem nodeCourse_of_symbol?_eq_none {expand : Rule → Expansion} {course : Rule → Course} {r : Rule}
    (h : r.symbol? = none) : nodeCourse g o expand course r = Course.row expand course r.children := by
  cases r <;> first | rfl | cases h

/-- The course of a symbol beside its expansion: nothing happens, or what is remembered is met, or a new rule
is inlined. -/
theorem symbolCourse_cases (g : Grammar) (o : Options) (expand : Rule → Expansion) (course : Rule → Course)
    (name : String) (e : Expander) :
    (symbolCourse g o expand course name e = [] ∧ (expandSymbol g o expand name e).2 = e) ∨
    (∃ own, e.memo.lookup name = some own ∧
      symbolCourse g o expand course name e = [.met name own.isEmpty] ∧
      expandSymbol g o expand name e = (.ok own, if own.isEmpty then e.report (.cycleCut name) else e)) ∨
    ∃ body, e.memo.lookup name = none ∧ g.rules.get? name = some body ∧
      symbolCourse g o expand course name e = .met name false :: Course.inlining expand course name body e ∧
      expandSymbol g o expand name e = Expansion.inline expand name body e := by
  cases hResolves : g.resolves name with
  | false => exact Or.inl (by simp [symbolCourse, expandSymbol, hResolves])
  | true =>
    cases hHidden : o.isHidden name with
    | false => exact Or.inl (by simp [symbolCourse, expandSymbol, hResolves, hHidden])
    | true =>
      cases hKnown : e.memo.lookup name with
      | some own =>
        exact Or.inr (Or.inl ⟨own, rfl, by simp [symbolCourse, hResolves, hHidden, hKnown],
          expandSymbol_of_known e hResolves hHidden hKnown⟩)
      | none =>
        cases hBody : g.rules.get? name with
        | none => exact Or.inl (by simp [symbolCourse, expandSymbol, hResolves, hHidden, hKnown, hBody])
        | some body =>
          exact Or.inr (Or.inr ⟨body, rfl, rfl,
            by simp [symbolCourse, hResolves, hHidden, hKnown, hBody],
            expandSymbol_of_body e hResolves hHidden hKnown hBody⟩)

theorem Happening.record?_cut (name : String) :
    (Happening.met name true).record? = some (Event.cycleCut name).entry :=
  rfl

theorem Happening.record?_inlined (name : String) :
    (Happening.inlined name).record? = some (Event.ruleInlined name).entry :=
  rfl

theorem Expander.events_report (e : Expander) (event : Event) :
    (e.report event).events = e.events ++ [event] :=
  List.reverse_cons

/-- Whether the inlining of the rule has begun and has not returned. -/
def InProgress (past : List Happening) (name : String) : Prop :=
  .inlined name ∈ past ∧ ∀ outcome, .returned name outcome ∉ past

/-- What the entry of a rule says of the past. -/
inductive Standing (past : List Happening) (name : String) : Option (List Shape) → Prop where
  | new (hNew : .inlined name ∉ past) (hNone : ∀ outcome, .returned name outcome ∉ past) :
      Standing past name none
  | inProgress (hOpen : InProgress past name) : Standing past name (some [])
  | returned {shapes : List Shape}
      (hOnly : ∀ outcome, .returned name outcome ∈ past ↔ outcome = .ok shapes) :
      Standing past name (some shapes)

def Expander.Reflects (e : Expander) (past : List Happening) : Prop :=
  ∀ name, Standing past name (e.memo.lookup name)

/-- Whether, after the past, the record of a cut cycle is made at exactly the references to rules that are in
progress or have returned without shapes. -/
def CutsAfter (past happenings : List Happening) : Prop :=
  ∀ before name cut after, happenings = before ++ .met name cut :: after →
    (cut = true ↔ InProgress (past ++ before) name ∨ .returned name (.ok []) ∈ past ++ before)

namespace Standing

theorem append {entry : Option (List Shape)} (h : Standing past name entry)
    (hInlined : .inlined name ∉ more) (hReturned : ∀ outcome, .returned name outcome ∉ more) :
    Standing (past ++ more) name entry := by
  have hSame : ∀ outcome, .returned name outcome ∈ past ++ more ↔ .returned name outcome ∈ past := by
    intro outcome
    rw [List.mem_append, or_iff_left (hReturned outcome)]
  cases h with
  | new hNew hNone =>
    refine .new ?_ fun outcome hMem => hNone outcome ((hSame outcome).mp hMem)
    rw [List.mem_append, or_iff_left hInlined]
    exact hNew
  | inProgress hOpen =>
    refine .inProgress ⟨List.mem_append_left _ hOpen.1, fun outcome hMem => ?_⟩
    exact hOpen.2 outcome ((hSame outcome).mp hMem)
  | returned hOnly => exact .returned fun outcome => (hSame outcome).trans (hOnly outcome)

theorem isEmpty_iff {shapes : List Shape} (h : Standing past name (some shapes)) :
    shapes.isEmpty = true ↔ InProgress past name ∨ .returned name (.ok []) ∈ past := by
  cases h with
  | inProgress hOpen => exact iff_of_true rfl (Or.inl hOpen)
  | returned hOnly =>
    have hNot : ¬ InProgress past name := fun hOpen => hOpen.2 _ ((hOnly _).mpr rfl)
    rw [or_iff_right hNot, hOnly, Except.ok.injEq, List.isEmpty_iff, eq_comm]

end Standing

namespace Expander.Reflects

theorem notMem_of_new (h : e.Reflects past) (hNew : e.memo.lookup name = none) :
    .inlined name ∉ past ∧ ∀ outcome, .returned name outcome ∉ past := by
  have hStanding := h name
  rw [hNew] at hStanding
  cases hStanding with
  | new hNotOpen hNone => exact ⟨hNotOpen, hNone⟩

theorem met (h : e.Reflects past) (name : String) (cut : Bool) : e.Reflects (past ++ [.met name cut]) :=
  fun other => (h other).append (by simp) (by simp)

theorem opening (h : e.Reflects past) (hNew : e.memo.lookup name = none) :
    ((e.remember name []).report (.ruleInlined name)).Reflects (past ++ [.inlined name]) := by
  intro other
  change Standing _ other (List.lookup other ((name, []) :: e.memo))
  by_cases hEq : other = name
  · subst hEq
    rw [Memo.lookup_cons_self]
    exact .inProgress ⟨by simp, by simpa using (h.notMem_of_new hNew).2⟩
  · rw [Memo.lookup_cons_of_ne _ _ hEq]
    exact (h other).append (by simpa using hEq) (by simp)

theorem closing (h : e.Reflects past) (hOpen : InProgress past name) (shapes : List Shape) :
    (e.remember name shapes).Reflects (past ++ [.returned name (.ok shapes)]) := by
  intro other
  change Standing _ other (List.lookup other ((name, shapes) :: e.memo))
  by_cases hEq : other = name
  · subst hEq
    rw [Memo.lookup_cons_self]
    refine .returned fun outcome => ?_
    rw [List.mem_append, or_iff_right (hOpen.2 outcome)]
    simp
  · rw [Memo.lookup_cons_of_ne _ _ hEq]
    exact (h other).append (by simp) (by simp [hEq])

end Expander.Reflects

namespace CutsAfter

theorem append (h : CutsAfter past hs) (hMore : CutsAfter (past ++ hs) more) :
    CutsAfter past (hs ++ more) := by
  intro before name cut after hSplit
  rcases List.append_eq_append_iff.mp hSplit with ⟨front, rfl, hFront⟩ | ⟨back, hBack, hRest⟩
  · rw [← List.append_assoc]
    exact hMore front name cut after hFront
  · cases back with
    | nil =>
      -- The reference is the first of `more`, and all of `hs` is before it.
      rw [List.append_nil] at hBack
      have hHere := hMore [] name cut after hRest.symm
      rwa [List.append_nil, hBack] at hHere
    | cons item rest =>
      obtain ⟨rfl, -⟩ := List.cons.inj hRest
      exact h before name cut rest hBack

theorem of_notMem (h : ∀ name cut, .met name cut ∉ hs) : CutsAfter past hs :=
  fun before name cut after hSplit => absurd (by rw [hSplit]; simp) (h name cut)

theorem singleton {cut : Bool}
    (h : cut = true ↔ InProgress past name ∨ .returned name (.ok []) ∈ past) :
    CutsAfter past [.met name cut] := by
  intro before other cut' after hSplit
  obtain ⟨rfl, hItem, -⟩ : before = [] ∧ Happening.met name cut = .met other cut' ∧ after = [] := by
    cases before with
    | nil => simpa using hSplit
    | cons => simp at hSplit
  cases hItem
  rwa [List.append_nil]

end CutsAfter

structure Recounts (e : Expander) (hs : List Happening)
    (result : Except SchemaError (List Shape) × Expander) : Prop where
  log : result.2.events.map Event.entry = e.events.map Event.entry ++ hs.filterMap Happening.record?
  cuts : ∀ past, e.Reflects past → CutsAfter past hs
  /-- No inlining that has begun before returns. -/
  keepsOpen : ∀ past name outcome, e.Reflects past → .inlined name ∈ past → .returned name outcome ∉ hs
  reflects : ∀ past shapes, e.Reflects past → result.1 = .ok shapes → result.2.Reflects (past ++ hs)

namespace Recounts

variable {inner result : Except SchemaError (List Shape) × Expander} {own : List Shape}

theorem refl (e : Expander) (outcome : Except SchemaError (List Shape)) : Recounts e [] (outcome, e) where
  log := by simp
  cuts _ _ := CutsAfter.of_notMem (by simp)
  keepsOpen _ _ _ _ _ := List.not_mem_nil
  reflects past _ hPast _ := by rwa [List.append_nil]

theorem trans (h : Recounts e hs (.ok own, e₁)) (hMore : Recounts e₁ more result) :
    Recounts e (hs ++ more) result where
  log := by rw [hMore.log, h.log, List.filterMap_append, List.append_assoc]
  cuts past hPast := (h.cuts past hPast).append (hMore.cuts _ (h.reflects past own hPast rfl))
  keepsOpen past name outcome hPast hOpen hMem := by
    rcases List.mem_append.mp hMem with hMem | hMem
    · exact h.keepsOpen past name outcome hPast hOpen hMem
    · exact hMore.keepsOpen _ name outcome (h.reflects past own hPast rfl) (List.mem_append_left _ hOpen) hMem
  reflects past shapes hPast hResult := by
    rw [← List.append_assoc]
    exact hMore.reflects _ shapes (h.reflects past own hPast rfl) hResult

theorem map (h : Recounts e hs result) (f : List Shape → List Shape) :
    Recounts e hs (result.1.map f, result.2) where
  log := h.log
  cuts := h.cuts
  keepsOpen := h.keepsOpen
  reflects past shapes hPast hResult := by
    obtain ⟨outcome, e'⟩ := result
    cases outcome with
    | error err => cases hResult
    | ok own => exact h.reflects past own hPast rfl

theorem of_enter (h : Recounts e.enter hs result) : Recounts e hs (result.1, result.2.leave) :=
  ⟨h.log, h.cuts, h.keepsOpen, h.reflects⟩

theorem known (hKnown : e.memo.lookup name = some own) :
    Recounts e [.met name own.isEmpty] (.ok own, if own.isEmpty then e.report (.cycleCut name) else e) where
  log := by
    cases own with
    | nil =>
      change (e.report (.cycleCut name)).events.map Event.entry =
        _ ++ [Happening.met name true].filterMap Happening.record?
      rw [Expander.events_report, List.map_append, List.filterMap_cons_some (Happening.record?_cut name)]
      rfl
    | cons => exact (List.append_nil _).symm
  cuts past hPast := by
    have hStanding := hPast name
    rw [hKnown] at hStanding
    exact CutsAfter.singleton hStanding.isEmpty_iff
  keepsOpen _ _ _ _ _ := by simp
  reflects past _ hPast _ := by
    have hMet := hPast.met name own.isEmpty
    cases own <;> exact hMet

theorem opening (hNew : e.memo.lookup name = none) :
    Recounts e [.met name false, .inlined name]
      (.ok [], (e.remember name []).report (.ruleInlined name)) where
  log := by
    change ((e.remember name []).report (.ruleInlined name)).events.map Event.entry =
      _ ++ [Happening.inlined name].filterMap Happening.record?
    rw [Expander.events_report, List.map_append, List.filterMap_cons_some (Happening.record?_inlined name)]
    rfl
  cuts past hPast := by
    obtain ⟨hNotOpen, hNone⟩ := hPast.notMem_of_new hNew
    have hMet : CutsAfter past [.met name false] :=
      .singleton (iff_of_false Bool.false_ne_true (not_or.mpr ⟨fun hOpen => hNotOpen hOpen.1, hNone _⟩))
    exact hMet.append (.of_notMem (by simp))
  keepsOpen _ _ _ _ _ := by simp
  reflects past _ hPast _ := by
    have hOpening := (hPast.met name false).opening hNew
    rwa [List.append_assoc] at hOpening

/-- At the end of an inlining its return is added. The rule was new at the beginning, so that no rule that was
in progress before has returned. -/
theorem returning {outcome : Except SchemaError (List Shape)} (h : Recounts e hs inner)
    (hNew : e.memo.lookup name = none) (hEvents : result.2.events = inner.2.events)
    (hReflects : ∀ past shapes, e.Reflects past → result.1 = .ok shapes →
      result.2.Reflects (past ++ (hs ++ [.returned name outcome]))) :
    Recounts e (hs ++ [.returned name outcome]) result where
  log := by rw [hEvents, h.log, List.filterMap_append]; simp [Happening.record?]
  cuts past hPast := (h.cuts past hPast).append (CutsAfter.of_notMem (by simp))
  keepsOpen past other _ hPast hOpen hMem := by
    rcases List.mem_append.mp hMem with hMem | hMem
    · exact h.keepsOpen past other _ hPast hOpen hMem
    · -- A rule that was in progress is not the one that returns here.
      simp only [List.mem_singleton, Happening.returned.injEq] at hMem
      exact (hPast.notMem_of_new hNew).1 (hMem.1 ▸ hOpen)
  reflects := hReflects

theorem inlining {expand : Rule → Expansion} {course : Rule → Course} {body : Rule}
    (hNew : e.memo.lookup name = none)
    (hBody : Recounts ((e.remember name []).report (.ruleInlined name))
      (course body ((e.remember name []).report (.ruleInlined name)))
      (expand body ((e.remember name []).report (.ruleInlined name)))) :
    Recounts e (.met name false :: Course.inlining expand course name body e)
      (Expansion.inline expand name body e) := by
  have hInside := (opening hNew).trans hBody
  have hOpen : ∀ past, e.Reflects past → InProgress (past ++ ([.met name false, .inlined name] ++
      course body ((e.remember name []).report (.ruleInlined name)))) name := by
    -- The rule has not returned in the past, since it is new, nor while its body was expanded.
    intro past hPast
    have hOpening := (opening hNew).reflects past [] hPast rfl
    refine ⟨by simp, fun outcome hMem => ?_⟩
    rw [← List.append_assoc, List.mem_append] at hMem
    rcases hMem with hMem | hMem
    · exact (hPast.notMem_of_new hNew).2 outcome (by simpa using hMem)
    · exact hBody.keepsOpen _ name outcome hOpening (by simp) hMem
  refine hInside.returning hNew ?_ ?_
  · cases hOwn : expand body ((e.remember name []).report (.ruleInlined name)) with
    | mk outcome e₁ =>
      cases outcome with
      | error err => rw [Expansion.inline_of_error hOwn]
      | ok own => rw [Expansion.inline_of_ok hOwn]; rfl
  · intro past shapes hPast hResult
    have hInline : Expansion.inline expand name body e = (.ok shapes, (Expansion.inline expand name body e).2) :=
      Prod.ext hResult rfl
    obtain ⟨own, e₁, hOwn, rfl, hState⟩ := Expansion.inline_eq_ok hInline
    rw [hState, hResult, ← List.append_assoc]
    rw [hOwn] at hInside
    exact (hInside.reflects past own hPast rfl).closing (hOpen past hPast) (firstSeen own)

section Parts

variable {expand : Rule → Expansion} {course : Rule → Course}
  (hParts : ∀ r e, Recounts e (course r e) (expand r e))

include hParts

theorem row (rs : List Rule) (e : Expander) :
    Recounts e (Course.row expand course rs e) (Expansion.concat expand rs e) := by
  induction rs generalizing e with
  | nil => exact refl e _
  | cons r rest ih =>
    have hHead := hParts r e
    cases hOwn : expand r e with
    | mk outcome e₁ =>
      rw [hOwn] at hHead
      cases outcome with
      | error err =>
        rw [Expansion.concat_cons_of_error hOwn, Course.row, hOwn, List.append_nil]
        exact hHead
      | ok own =>
        rw [Expansion.concat_cons_eq_map hOwn, Course.row, hOwn]
        exact hHead.trans ((ih e₁).map (own ++ ·))

theorem symbol (name : String) (e : Expander) :
    Recounts e (symbolCourse g o expand course name e) (expandSymbol g o expand name e) := by
  rcases symbolCourse_cases g o expand course name e with
    ⟨hCourse, hState⟩ | ⟨own, hKnown, hCourse, hResult⟩ | ⟨body, hNew, -, hCourse, hResult⟩
  · rw [hCourse, show expandSymbol g o expand name e = (_, e) from Prod.ext rfl hState]
    exact refl e _
  · rw [hCourse, hResult]
    exact known hKnown
  · rw [hCourse, hResult]
    exact inlining hNew (hParts body _)

theorem node (r : Rule) (e : Expander) :
    Recounts e (nodeCourse g o expand course r e) (expandNode g o expand r e) := by
  have hRow := row hParts r.children e
  cases r using Rule.byKind with
  | transparent r hTransparent =>
    rw [expandNode_of_isTransparent hTransparent, nodeCourse_of_symbol?_eq_none
      (Rule.symbol?_of_isTransparent hTransparent)]
    exact hRow
  | single r hSingle =>
    rw [expandNode_of_isSingleValued hSingle, Expansion.first_eq_map, nodeCourse_of_symbol?_eq_none
      (Rule.symbol?_of_isSingleValued hSingle)]
    exact hRow.map (·.take 1)
  | literal | pattern => exact refl e _
  | symbol name => exact symbol hParts name e

end Parts

end Recounts

theorem recounts_courseWithin (room : Nat) (r : Rule) (e : Expander) :
    Recounts e (courseWithin g o room r e) (expandWithin g o room r e) := by
  induction room generalizing r e with
  | zero => exact .refl e _
  | succ room ih => exact (Recounts.node ih r e.enter).of_enter

theorem recounts_courseOfFresh (g : Grammar) (o : Options) (r : Rule) :
    Recounts {} (courseOfFresh g o r) (expandFresh g o r) :=
  recounts_courseWithin maxDepth r {}

theorem reflects_nil : Expander.Reflects {} [] :=
  fun _ => .new List.not_mem_nil fun _ => List.not_mem_nil

theorem logOfFresh_eq_filterMap (g : Grammar) (o : Options) (r : Rule) :
    logOfFresh g o r = (courseOfFresh g o r).filterMap Happening.record? :=
  (recounts_courseOfFresh g o r).log

theorem cutsAfter_courseOfFresh (g : Grammar) (o : Options) (r : Rule) : CutsAfter [] (courseOfFresh g o r) :=
  (recounts_courseOfFresh g o r).cuts [] reflects_nil

end GrammarShapes
