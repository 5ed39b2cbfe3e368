import GrammarShapes.Proofs.Expansion.Resolved
import GrammarShapes.Proofs.Grammar.References
import GrammarShapes.Proofs.Outcome
import GrammarShapes.Proofs.Schema.Queries

set_option autoImplicit false

/-! # References that resolve

The references of a grammar are checked in two ways: all at once by a look at every rule and extra, or as
expansion comes to them. Where the first finds nothing dangling, neither does the second, for it meets only
symbols that stand in some rule or extra. Conversely a schema is evidence for every reference at or below
the nodes that it expands, and in the hidden rules that are inlined there: expansion passes over no symbol,
not even where an alias or a field drops its shapes.
-/

namespace GrammarShapes

variable (g : Grammar) (o : Options)

def Inlines (r t : Rule) : Prop :=
  ∃ name ∈ r.references, o.isHidden name = true ∧ g.rules.get? name = some t

/-- Whether the shapes of a node go into the schema: those of collection rules do, and those of extras if
extras are included. -/
def IsExpanded (r : Rule) : Prop :=
  (∃ name ∈ g.collectionNames, g.rules.get? name = some r) ∨
  (o.includeExtras = true ∧ r ∈ g.extras)

def AllResolve (r : Rule) : Prop :=
  ∀ name ∈ r.references, g.resolves name = true

def Expansion.FindsAll (x : Expansion) : Prop :=
  ∀ e name, (x e).1 ≠ .error (.unknownRule name)

variable {g : Grammar} {o : Options} {expand : Rule → Expansion}

section Checked

theorem AllResolve.of_opened {r t : Rule} (hRoots : ∀ r ∈ g.roots, AllResolve g r) (h : AllResolve g r)
    (ht : t ∈ opened g o r) : AllResolve g t := by
  cases hSymbol : r.symbol? with
  | none =>
    rw [opened_of_symbol?_eq_none hSymbol] at ht
    intro name hName
    apply h
    rw [Rule.references_eq, List.mem_append, List.mem_flatMap]
    exact Or.inr ⟨t, ht, hName⟩
  | some name =>
    obtain rfl : r = .symbol name := Rule.eq_symbol_of_symbol? hSymbol
    have hEntry := Directory.get?_eq_some_iff.mp (mem_opened_symbol_iff.mp ht).2
    exact hRoots t (List.mem_append_left _ (List.mem_map.mpr ⟨_, hEntry, rfl⟩))

theorem AllResolve.of_meets {r t : Rule} (hRoots : ∀ r ∈ g.roots, AllResolve g r) (h : AllResolve g r)
    (hMeets : Meets g o r t) : AllResolve g t := by
  induction hMeets with
  | refl => exact h
  | tail _ hOpened ih => exact ih.of_opened hRoots hOpened

theorem AllResolve.resolved {r : Rule} (hRoots : ∀ r ∈ g.roots, AllResolve g r) (h : AllResolve g r) :
    Resolved g o r := by
  intro name hMeets
  apply h.of_meets hRoots hMeets
  rw [Rule.references_eq]
  exact List.mem_cons_self

namespace Expansion.FindsAll

theorem concat {rs : List Rule} (h : ∀ r ∈ rs, (expand r).FindsAll) :
    (Expansion.concat expand rs).FindsAll := by
  induction rs with
  | nil => exact fun e name hError => by cases hError
  | cons r rest ih =>
    obtain ⟨hHead, hRest⟩ := List.forall_mem_cons.mp h
    intro e name hError
    cases hOwn : expand r e with
    | mk result e₁ =>
      cases result with
      | error err =>
        rw [Expansion.concat_cons_of_error hOwn] at hError
        exact hHead e name ((congrArg Prod.fst hOwn).trans hError)
      | ok own =>
        rw [Expansion.concat_cons_eq_map hOwn] at hError
        exact ih hRest e₁ name (eq_error_of_map hError)

theorem first {x : Expansion} (h : x.FindsAll) : x.first.FindsAll := by
  intro e name hError
  rw [Expansion.first_eq_map] at hError
  exact h e name (eq_error_of_map hError)

theorem inline {name : String} {body : Rule} (h : (expand body).FindsAll) :
    (Expansion.inline expand name body).FindsAll := by
  intro e other hError
  have hBody := h ((e.remember name []).report (.ruleInlined name)) other
  unfold Expansion.inline at hError
  split at hError
  · rename_i hOwn
    exact hBody ((congrArg Prod.fst hOwn).trans hError)
  · cases hError

theorem symbol {name : String} (hResolves : g.resolves name = true)
    (hBody : ∀ body ∈ opened g o (.symbol name), (expand body).FindsAll) :
    (expandSymbol g o expand name).FindsAll := by
  intro e other hError
  cases hHidden : o.isHidden name with
  | false =>
    rw [expandSymbol_of_visible e hResolves hHidden] at hError
    cases hError
  | true =>
    cases hKnown : e.memo.lookup name with
    | some own =>
      rw [expandSymbol_of_known e hResolves hHidden hKnown] at hError
      cases hError
    | none =>
      cases hGet : g.rules.get? name with
      | none =>
        rw [expandSymbol_of_token e hResolves hHidden hKnown hGet] at hError
        cases hError
      | some body =>
        rw [expandSymbol_of_body e hResolves hHidden hKnown hGet] at hError
        exact inline (hBody body (mem_opened_symbol_iff.mpr ⟨hHidden, hGet⟩)) e other hError

theorem node {r : Rule} (hResolves : ∀ name, r = .symbol name → g.resolves name = true)
    (hOpened : ∀ t ∈ opened g o r, (expand t).FindsAll) : (expandNode g o expand r).FindsAll := by
  have hRow : (Expansion.concat expand r.children).FindsAll :=
    concat fun c hc => hOpened c (mem_opened_of_mem_children hc)
  cases r using Rule.byKind with
  | transparent r hTransparent =>
    rw [expandNode_of_isTransparent hTransparent]
    exact hRow
  | single r hSingle =>
    rw [expandNode_of_isSingleValued hSingle]
    exact hRow.first
  | literal | pattern => exact fun e name hError => by cases hError
  | symbol name => exact symbol (hResolves name rfl) hOpened

end Expansion.FindsAll

theorem Resolved.findsAll {r : Rule} (h : Resolved g o r) (room : Nat) :
    (expandWithin g o room r).FindsAll := by
  induction room generalizing r with
  | zero => exact fun e name hError => by cases hError
  | succ room ih =>
    have hNode : (expandNode g o (expandWithin g o room) r).FindsAll := by
      apply Expansion.FindsAll.node
      · rintro name rfl
        exact h name (Meets.refl _)
      · exact fun t ht => ih (h.of_meets (Meets.of_opened ht))
    exact fun e name hError => hNode e.enter name hError

end Checked

section Expanded

theorem Meets.of_mem_references {r : Rule} {name : String} (h : name ∈ r.references) :
    Meets g o r (.symbol name) := by
  induction r using Rule.inductionOnChildren with
  | step r ih =>
    rw [Rule.references_eq, List.mem_append, List.mem_flatMap] at h
    rcases h with hOwn | ⟨c, hc, hBelow⟩
    · cases r <;> first | cases hOwn; done | skip
      obtain rfl := List.mem_singleton.mp hOwn
      exact Meets.refl _
    · exact (Meets.of_mem_children hc).trans (ih c hc hBelow)

theorem Inlines.meets {r t : Rule} (h : Inlines g o r t) : Meets g o r t := by
  obtain ⟨name, hName, hHidden, hBody⟩ := h
  exact (Meets.of_mem_references hName).trans (Meets.body hHidden hBody)

theorem AllResolve.of_expandFresh {r t : Rule} {shapes : List Shape}
    (h : (expandFresh g o r).1 = .ok shapes) (hReach : Relation.ReflTransGen (Inlines g o) r t) :
    AllResolve g t := by
  have hMeets : Meets g o r t := by
    induction hReach with
    | refl => exact Meets.refl r
    | tail _ hInlines ih => exact ih.trans hInlines.meets
  obtain ⟨m', hRun⟩ := Run.of_expandFresh h
  have hResolved : Resolved g o r := hRun.resolved List.mem_cons_self
  exact fun name hName => hResolved name (hMeets.trans (Meets.of_mem_references hName))

end Expanded

section Outcomes

variable {e : SchemaError}

theorem ok_of_addShapesOf {seen shapes : List Shape} {rs : List Rule}
    (h : (addShapesOf g o seen rs).outcome = .ok shapes) :
    ∀ r ∈ rs, ∃ own, (expandFresh g o r).1 = .ok own := by
  induction rs generalizing seen with
  | nil => exact fun r hr => by cases hr
  | cons r rest ih =>
    obtain ⟨own, hOwn, hRest⟩ := Logged.outcome_bind_eq_ok_iff.mp h
    exact List.forall_mem_cons.mpr ⟨⟨own, hOwn⟩, ih hRest⟩

theorem error_of_addShapesOf {seen : List Shape} {rs : List Rule}
    (h : (addShapesOf g o seen rs).outcome = .error e) :
    ∃ r ∈ rs, (expandFresh g o r).1 = .error e := by
  induction rs generalizing seen with
  | nil => cases h
  | cons r rest ih =>
    rcases Logged.outcome_bind_eq_error_iff.mp h with hHead | ⟨own, -, hRest⟩
    · exact ⟨r, List.mem_cons_self, hHead⟩
    · obtain ⟨t, ht, hError⟩ := ih hRest
      exact ⟨t, List.mem_cons_of_mem _ ht, hError⟩

theorem error_of_extraShapes (h : (extraShapes g o).outcome = .error e) :
    ∃ r ∈ g.roots, (expandFresh g o r).1 = .error e := by
  unfold extraShapes at h
  split at h
  · obtain ⟨r, hr, hError⟩ := error_of_addShapesOf h
    exact ⟨r, List.mem_append_right _ hr, hError⟩
  · cases h

theorem error_of_shapesWithExtras {name : String} {r : Rule} {extras : List Shape}
    (h : (shapesWithExtras g o name r extras).outcome = .error e) : (expandFresh g o r).1 = .error e := by
  rcases Logged.outcome_bind_eq_error_iff.mp h with hRecord | ⟨_, -, hShapes⟩
  · cases hRecord
  · rcases Logged.outcome_bind_eq_error_iff.mp hShapes with hError | ⟨own, -, hResult⟩
    · exact hError
    · cases hResult

theorem mem_roots_of_mem_entries {p : String × Rule} (h : p ∈ g.rules.entries) : p.2 ∈ g.roots :=
  List.mem_append_left _ (List.mem_map_of_mem h)

theorem error_of_shapesOf {n : String} (hn : n ∈ g.rules.names) (h : (shapesOf g o n).outcome = .error e) :
    ∃ r ∈ g.roots, (expandFresh g o r).1 = .error e := by
  obtain ⟨p, hp, rfl⟩ := List.mem_map.mp hn
  have hGet : g.rule p.1 = .ok p.2 := by
    rw [Grammar.rule, Directory.get?_eq_some_iff.mpr hp]
  rw [shapesOf, hGet] at h
  by_cases hCollection : p.2.isCollection = true
  · simp only [if_pos hCollection] at h
    rcases Logged.outcome_bind_eq_error_iff.mp h with hExtras | ⟨extras, -, hShapes⟩
    · exact error_of_extraShapes hExtras
    · exact ⟨p.2, mem_roots_of_mem_entries hp, error_of_shapesWithExtras hShapes⟩
  · simp only [if_neg hCollection] at h
    rcases Logged.outcome_bind_eq_error_iff.mp h with hNone | ⟨extras, -, hShapes⟩
    · cases hNone
    · exact ⟨p.2, mem_roots_of_mem_entries hp, error_of_shapesWithExtras hShapes⟩

theorem error_of_generate_expansion (h : (generate g o).outcome = .error e) :
    ∃ r ∈ g.roots, (expandFresh g o r).1 = .error e := by
  rcases generate_eq_error_iff.mp h with hExtras | ⟨extras, -, hRules⟩
  · exact error_of_extraShapes hExtras
  · obtain ⟨before, p, after, hSplit, -, hFails⟩ := addRules_eq_error_iff.mp hRules
    have hp : p ∈ g.rules.filter Rule.isCollection :=
      hSplit ▸ List.mem_append_right _ List.mem_cons_self
    exact ⟨p.2, mem_roots_of_mem_entries (List.mem_filter.mp hp).1, error_of_shapesWithExtras hFails⟩

theorem ok_of_generate {s : Schema} (h : (generate g o).outcome = .ok s) {r : Rule}
    (hr : IsExpanded g o r) : ∃ own, (expandFresh g o r).1 = .ok own := by
  obtain ⟨extras, hExtras, hRules⟩ := generate_eq_ok_iff.mp h
  rcases hr with ⟨name, hName, hRule⟩ | ⟨hIncluded, hExtra⟩
  · obtain ⟨t, hSame, hCollection⟩ := Grammar.mem_collectionNames_iff.mp hName
    obtain rfl : r = t := Option.some.inj (hRule.symm.trans hSame)
    have hMem : (name, r) ∈ g.rules.filter Rule.isCollection :=
      List.mem_filter.mpr ⟨Directory.get?_eq_some_iff.mp hRule, hCollection⟩
    obtain ⟨shapes, hShapes, -⟩ := exists_mem_of_answers (answers_of_addRules hRules) hMem
    obtain ⟨own, hOwn, -⟩ := shapesWithExtras_eq_ok hShapes
    exact ⟨own, hOwn⟩
  · rw [extraShapes, if_pos hIncluded] at hExtras
    exact ok_of_addShapesOf hExtras r hExtra

end Outcomes

/-- After a check of the references neither a schema nor the extras nor the query of any rule comes to an
unknown rule. A schema in turn shows that every reference resolves that stands in a node that it expands or
in a hidden rule that is inlined there, directly or through others. -/
theorem resolution_of_check_and_of_generate (g : Grammar) (o : Options) :
    (g.checkReferences = .ok () → ∀ name,
      (generate g o).outcome ≠ .error (.unknownRule name) ∧
      (extraShapes g o).outcome ≠ .error (.unknownRule name) ∧
      ∀ n ∈ g.rules.names, (shapesOf g o n).outcome ≠ .error (.unknownRule name)) ∧
    (∀ s, (generate g o).outcome = .ok s → ∀ r t, IsExpanded g o r →
      Relation.ReflTransGen (Inlines g o) r t → ∀ name ∈ t.references, g.resolves name = true) := by
  constructor
  · intro hCheck name
    have hRoots : ∀ r ∈ g.roots, AllResolve g r := Grammar.checkReferences_eq_ok_iff.mp hCheck
    have hNone : ¬ ∃ r ∈ g.roots, (expandFresh g o r).1 = .error (.unknownRule name) := by
      rintro ⟨r, hr, hError⟩
      exact ((hRoots r hr).resolved hRoots).findsAll maxDepth {} name hError
    exact ⟨fun h => hNone (error_of_generate_expansion h), fun h => hNone (error_of_extraShapes h),
      fun n hn h => hNone (error_of_shapesOf hn h)⟩
  · intro s h r t hExpanded hReach
    obtain ⟨shapes, hShapes⟩ := ok_of_generate h hExpanded
    exact AllResolve.of_expandFresh hShapes hReach

example :
    (generate (Grammar.withRule {} "list"
      (.sequence [.field "item" (.choice [.literal "x", .symbol "gone"])])) {}).outcome =
        .error (.unknownRule "gone") := rfl

end GrammarShapes
