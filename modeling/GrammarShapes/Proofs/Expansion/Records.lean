import GrammarShapes.Proofs.Expansion.Resolved

set_option autoImplicit false

/-! # Records of inlining

The inlining of a rule is recorded when the rule is remembered for the first time, and no rule is ever
forgotten. So at every point of an expansion, whether it will succeed or not, the rules whose inlining has
been recorded are those that are remembered, each recorded once. After an expansion that succeeds these are
all hidden rules that the node can come to: what an alias or a field drops has been inlined before.

`Outlasts` is the way to such a statement: a property of the state that withstands the few steps that change
it outlasts every expansion.
-/

namespace GrammarShapes

def Event.entry (event : Event) : Level × String :=
  (event.level, event.message)

def Event.inliningEntry (name : String) : Level × String :=
  (.trace, "inlining hidden rule " ++ name)

def logOfFresh (g : Grammar) (o : Options) (r : Rule) : List (Level × String) :=
  (expandFresh g o r).2.events.map Event.entry

/-- Only the record of an inlining has its text: the other texts begin with other letters. -/
theorem Event.entry_eq_inliningEntry_iff {event : Event} {name : String} :
    event.entry = inliningEntry name ↔ event = .ruleInlined name := by
  constructor
  · intro h
    simp only [entry, inliningEntry, Prod.mk.injEq] at h
    obtain ⟨hLevel, hMessage⟩ := h
    cases event with
    | ruleInlined other =>
      change "inlining hidden rule " ++ other = _ at hMessage
      simpa using hMessage
    | grammarLoaded | schemaGenerated | shapesComputed => cases hLevel
    | cycleCut other =>
      change "hidden rule " ++ other ++ " already being expanded, cutting cycle" = _ at hMessage
      simp [← String.toList_inj] at hMessage
    | walkStarted =>
      change "walk started" = _ at hMessage
      simp [← String.toList_inj] at hMessage
    | walkFinished =>
      change "walk finished" = _ at hMessage
      simp [← String.toList_inj] at hMessage
    | walkCounted visited =>
      change "walk finished after " ++ toString visited ++ " nodes" = _ at hMessage
      simp [← String.toList_inj] at hMessage
  · rintro rfl
    rfl

/-- Whether a property of the state holds after the expansion if it held before, and no rule is forgotten. -/
structure Expansion.Keeps (P : Expander → Prop) (x : Expansion) : Prop where
  holds : ∀ e, P e → P (x e).2
  grows : ∀ e name, (e.memo.lookup name).isSome = true → ((x e).2.memo.lookup name).isSome = true

/-- Whether a property of the state withstands every change of it. A rule is opened when it is new, and it is
remembered again, with its shapes, at its end. -/
structure Outlasts (P : Expander → Prop) : Prop where
  enter : ∀ e, P e → P e.enter
  leave : ∀ e, P e → P e.leave
  cut : ∀ e name, P e → P (e.report (.cycleCut name))
  opening : ∀ e name, e.memo.lookup name = none → P e →
    P ((e.remember name []).report (.ruleInlined name))
  closing : ∀ e name own, (e.memo.lookup name).isSome = true → P e → P (e.remember name own)

variable {g : Grammar} {o : Options} {P : Expander → Prop} {expand : Rule → Expansion} {x : Expansion}

namespace Expansion.Keeps

theorem of_state_eq (h : ∀ e, (x e).2 = e) : x.Keeps P where
  holds e hP := by rwa [h e]
  grows e name hName := by rwa [h e]

theorem first (h : x.Keeps P) : x.first.Keeps P := by
  constructor
  · intro e hP
    rw [first_eq_map]
    exact h.holds e hP
  · intro e name hName
    rw [first_eq_map]
    exact h.grows e name hName

theorem concat {rs : List Rule} (h : ∀ r ∈ rs, (expand r).Keeps P) : (concat expand rs).Keeps P := by
  induction rs with
  | nil => exact of_state_eq fun _ => rfl
  | cons r rest ih =>
    obtain ⟨hHead, hRest⟩ := List.forall_mem_cons.mp h
    have hState : ∀ e, (Expansion.concat expand (r :: rest) e).2 = (expand r e).2 ∨
        (Expansion.concat expand (r :: rest) e).2 = (Expansion.concat expand rest (expand r e).2).2 := by
      intro e
      cases hOwn : expand r e with
      | mk result e₁ =>
        cases result with
        | error err => exact Or.inl (by rw [concat_cons_of_error hOwn])
        | ok own => exact Or.inr (by rw [concat_cons_eq_map hOwn])
    constructor
    · intro e hP
      have hFirst := hHead.holds e hP
      rcases hState e with hEq | hEq
      · exact hEq ▸ hFirst
      · exact hEq ▸ (ih hRest).holds _ hFirst
    · intro e name hName
      have hFirst := hHead.grows e name hName
      rcases hState e with hEq | hEq
      · exact hEq ▸ hFirst
      · exact hEq ▸ (ih hRest).grows _ name hFirst

theorem inline_holds {name : String} {body : Rule} {e : Expander} (hOutlasts : Outlasts P)
    (h : (expand body).Keeps P) (hNew : e.memo.lookup name = none) (hP : P e) :
    P (inline expand name body e).2 := by
  have hOpen := h.holds _ (hOutlasts.opening e name hNew hP)
  have hKnown := h.grows ((e.remember name []).report (.ruleInlined name)) name
    (Option.isSome_of_eq_some (Memo.lookup_cons_self name [] e.memo))
  cases hOwn : expand body ((e.remember name []).report (.ruleInlined name)) with
  | mk result e₁ =>
    rw [hOwn] at hOpen hKnown
    cases result with
    | error err => rwa [inline_of_error hOwn]
    | ok own =>
      rw [inline_of_ok hOwn]
      exact hOutlasts.closing e₁ name (firstSeen own) hKnown hOpen

theorem inline_grows {name other : String} {body : Rule} {e : Expander} (h : (expand body).Keeps P)
    (hOther : (e.memo.lookup other).isSome = true) :
    ((inline expand name body e).2.memo.lookup other).isSome = true := by
  have hKnown := h.grows ((e.remember name []).report (.ruleInlined name)) other
    (Memo.isSome_lookup_cons [] hOther)
  cases hOwn : expand body ((e.remember name []).report (.ruleInlined name)) with
  | mk result e₁ =>
    rw [hOwn] at hKnown
    cases result with
    | error err => rwa [inline_of_error hOwn]
    | ok own =>
      rw [inline_of_ok hOwn]
      exact Memo.isSome_lookup_cons _ hKnown

theorem symbol_cases (g : Grammar) (o : Options) (expand : Rule → Expansion) (name : String)
    (e : Expander) :
    (expandSymbol g o expand name e).2 = e ∨
    (expandSymbol g o expand name e).2 = e.report (.cycleCut name) ∨
    ∃ body, e.memo.lookup name = none ∧ body ∈ opened g o (.symbol name) ∧
      expandSymbol g o expand name e = inline expand name body e := by
  cases hResolves : g.resolves name with
  | false => exact Or.inl (by rw [expandSymbol_of_dangling e hResolves])
  | true =>
    cases hHidden : o.isHidden name with
    | false => exact Or.inl (by rw [expandSymbol_of_visible e hResolves hHidden])
    | true =>
      cases hKnown : e.memo.lookup name with
      | some own =>
        rw [expandSymbol_of_known e hResolves hHidden hKnown]
        cases own with
        | nil => exact Or.inr (Or.inl rfl)
        | cons => exact Or.inl rfl
      | none =>
        cases hBody : g.rules.get? name with
        | none => exact Or.inl (by rw [expandSymbol_of_token e hResolves hHidden hKnown hBody])
        | some body =>
          exact Or.inr (Or.inr ⟨body, rfl, mem_opened_symbol_iff.mpr ⟨hHidden, hBody⟩,
            expandSymbol_of_body e hResolves hHidden hKnown hBody⟩)

theorem symbol {name : String} (hOutlasts : Outlasts P) (h : ∀ r, (expand r).Keeps P) :
    (expandSymbol g o expand name).Keeps P := by
  constructor
  · intro e hP
    rcases symbol_cases g o expand name e with hEq | hEq | ⟨body, hNew, -, hEq⟩
    · rwa [hEq]
    · rw [hEq]
      exact hOutlasts.cut e name hP
    · rw [hEq]
      exact inline_holds hOutlasts (h body) hNew hP
  · intro e other hOther
    rcases symbol_cases g o expand name e with hEq | hEq | ⟨body, -, -, hEq⟩
    · rwa [hEq]
    · rwa [hEq]
    · rw [hEq]
      exact inline_grows (h body) hOther

theorem node (hOutlasts : Outlasts P) (h : ∀ r, (expand r).Keeps P) (r : Rule) :
    (expandNode g o expand r).Keeps P := by
  have hRow : (Expansion.concat expand r.children).Keeps P := concat fun c _ => h c
  cases r using Rule.byKind with
  | transparent r hTransparent => rwa [expandNode_of_isTransparent hTransparent]
  | single r hSingle =>
    rw [expandNode_of_isSingleValued hSingle]
    exact hRow.first
  | literal | pattern => exact of_state_eq fun _ => rfl
  | symbol name => exact symbol hOutlasts h

end Expansion.Keeps

theorem Outlasts.expandWithin (h : Outlasts P) (room : Nat) (r : Rule) :
    (expandWithin g o room r).Keeps P := by
  induction room generalizing r with
  | zero => exact .of_state_eq fun _ => rfl
  | succ room ih =>
    have hNode := Expansion.Keeps.node (g := g) (o := o) h ih r
    exact ⟨fun e hP => h.leave _ (hNode.holds _ (h.enter e hP)),
      fun e name hName => hNode.grows e.enter name hName⟩

/-- Whether the rules whose inlining has been recorded are those that are remembered, each recorded once. -/
def Expander.RecordsMemo (e : Expander) : Prop :=
  ∀ name, e.reported.count (.ruleInlined name) = if (e.memo.lookup name).isSome then 1 else 0

theorem outlasts_recordsMemo : Outlasts Expander.RecordsMemo where
  enter _ h := h
  leave _ h := h
  cut e name h other := by
    rw [Expander.report, List.count_cons_of_ne (by simp)]
    exact h other
  opening e name hNew h other := by
    change (Event.ruleInlined name :: e.reported).count _ =
      if (List.lookup other ((name, []) :: e.memo)).isSome then 1 else 0
    by_cases hOther : other = name
    · subst hOther
      rw [List.count_cons_self, h other, hNew, Memo.lookup_cons_self]
      rfl
    · rw [List.count_cons_of_ne (by simpa using Ne.symm hOther), h other,
        Memo.lookup_cons_of_ne _ _ hOther]
  closing e name own hKnown h other := by
    -- The name was remembered at the opening already, and neither side changes.
    change e.reported.count _ = if (List.lookup other ((name, own) :: e.memo)).isSome then 1 else 0
    by_cases hOther : other = name
    · subst hOther
      rw [h other, hKnown, Memo.lookup_cons_self]
      rfl
    · rw [h other, Memo.lookup_cons_of_ne _ _ hOther]

theorem recordsMemo_expandFresh (g : Grammar) (o : Options) (r : Rule) :
    (expandFresh g o r).2.RecordsMemo :=
  (outlasts_recordsMemo.expandWithin maxDepth r).holds {} fun _ => rfl

theorem count_logOfFresh (g : Grammar) (o : Options) (r : Rule) (name : String) :
    (logOfFresh g o r).count (Event.inliningEntry name) =
      if ((expandFresh g o r).2.memo.lookup name).isSome then 1 else 0 := by
  rw [← recordsMemo_expandFresh g o r name, logOfFresh, Expander.events, List.count_eq_countP,
    List.countP_map, List.countP_reverse, List.count_eq_countP]
  apply List.countP_congr
  intro event _
  simp [Event.entry_eq_inliningEntry_iff]

theorem isSome_lookup_expandFresh_iff {r : Rule} {shapes : List Shape} {name : String}
    (h : (expandFresh g o r).1 = .ok shapes) :
    ((expandFresh g o r).2.memo.lookup name).isSome = true ↔
      o.isHidden name = true ∧ name ∈ g.rules.names ∧ Meets g o r (.symbol name) := by
  have hRun : Run g o [] [r] shapes (expandFresh g o r).2.memo := Run.of_expandWithin (Prod.ext h rfl)
  have hEmpty : Memo.Backed g o [] := fun _ hNone => by cases hNone
  constructor
  · intro hName
    obtain ⟨body, hOpened⟩ := hRun.backed hEmpty name hName
    obtain ⟨hHidden, hBody⟩ := mem_opened_symbol_iff.mp hOpened
    rcases hRun.known_or_meets hName with hNone | ⟨t, ht, hMeets⟩
    · cases hNone
    · obtain rfl := List.mem_singleton.mp ht
      exact ⟨hHidden, Directory.mem_names_of_get? hBody, hMeets⟩
  · rintro ⟨hHidden, hRule, hMeets⟩
    obtain ⟨body, hBody⟩ : ∃ body, g.rules.get? name = some body := by
      rw [← Option.ne_none_iff_exists']
      exact fun hNone => Directory.get?_eq_none_iff.mp hNone hRule
    have hSpans := hRun.spans hEmpty
    have hSpanned : Spanned g o (expandFresh g o r).2.memo (.symbol name) :=
      (hSpans.row r List.mem_cons_self).of_meets
        (fun other otherBody hOther _ hOtherBody => hSpans.added other otherBody hOther rfl hOtherBody)
        hMeets
    cases hSpanned with
    | symbol _ hKnown => exact hKnown body (mem_opened_symbol_iff.mpr ⟨hHidden, hBody⟩)
    | node hNode => cases hNode

/-- The inlining of a rule is recorded at most once, however the expansion ends. If it succeeds, the record
is there exactly for the hidden rules that the node can come to, be it only behind an alias or a field. -/
theorem inlining_recorded_once (g : Grammar) (o : Options) (r : Rule) (name : String) :
    (logOfFresh g o r).count (.trace, "inlining hidden rule " ++ name) ≤ 1 ∧
    ∀ shapes, (expandFresh g o r).1 = .ok shapes →
      ((.trace, "inlining hidden rule " ++ name) ∈ logOfFresh g o r ↔
        o.isHidden name = true ∧ name ∈ g.rules.names ∧ Meets g o r (.symbol name)) := by
  have hCount := count_logOfFresh g o r name
  constructor
  · change (logOfFresh g o r).count (Event.inliningEntry name) ≤ 1
    rw [hCount]
    split <;> decide
  · intro shapes h
    rw [← isSome_lookup_expandFresh_iff h, ← List.count_pos_iff]
    change 0 < (logOfFresh g o r).count (Event.inliningEntry name) ↔ _
    rw [hCount]
    split <;> simp_all

def concealed : Grammar :=
  ((Grammar.withRule {} "_a" (.choice [.literal "x", .symbol "_b"])).withRule "_b"
    (.field "f" (.symbol "_a"))).withRule "_c" (.symbol "_a")

/-- Both rules in the circle are inlined although the field keeps the text before them only. -/
theorem concealed_inlining :
    (expandFresh concealed {} (.field "f" (.choice [.literal "y", .symbol "_a"]))).1 =
        .ok [.literal "y"] ∧
      (.trace, "inlining hidden rule " ++ "_b") ∈
        logOfFresh concealed {} (.field "f" (.choice [.literal "y", .symbol "_a"])) ∧
      (logOfFresh concealed {} (.sequence [.symbol "_c", .symbol "_b", .symbol "gone"])).count
        (.trace, "inlining hidden rule " ++ "_b") ≤ 1 := by
  have hBody : Meets concealed {} (.symbol "_a") (.choice [.literal "x", .symbol "_b"]) :=
    Meets.body (by decide) (by decide)
  have hInside : Meets concealed {} (.choice [.literal "x", .symbol "_b"]) (.symbol "_b") :=
    Meets.of_mem_children (by decide)
  have hField : Meets concealed {} (.field "f" (.choice [.literal "y", .symbol "_a"])) (.symbol "_a") :=
    (Meets.of_mem_children List.mem_cons_self).trans (Meets.of_mem_children (by decide))
  refine ⟨rfl, ?_, (inlining_recorded_once _ _ _ "_b").1⟩
  apply ((inlining_recorded_once _ _ _ "_b").2 [.literal "y"] rfl).mpr
  exact ⟨by decide, by decide, (hField.trans hBody).trans hInside⟩

end GrammarShapes
