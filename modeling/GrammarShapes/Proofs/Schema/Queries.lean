import GrammarShapes.Schema.Generation
import Mathlib.Data.List.Forall2

set_option autoImplicit false

/-! # A schema and the queries of its rules

A schema is made in one pass: the extras are expanded once, and each collection rule adds its list. A query
for a single rule expands the extras anew. Both give the same: a schema holds what the queries of the
collection rules give, in the order of the grammar, and where there is no schema the first query that fails
tells why.
-/

namespace GrammarShapes

variable {g : Grammar} {o : Options} {name : String} {shapes extras : List Shape}

def Grammar.collectionNames (g : Grammar) : List String :=
  (g.rules.filter Rule.isCollection).map (·.1)

theorem Grammar.mem_collectionNames_iff :
    name ∈ g.collectionNames ↔ ∃ r, g.rules.get? name = some r ∧ r.isCollection = true := by
  simp only [Grammar.collectionNames, Directory.filter, List.mem_map, List.mem_filter,
    Directory.get?_eq_some_iff]
  constructor
  · rintro ⟨⟨_, r⟩, hEntry, rfl⟩
    exact ⟨r, hEntry⟩
  · rintro ⟨r, hEntry⟩
    exact ⟨(name, r), hEntry, rfl⟩

theorem Grammar.nodup_collectionNames (g : Grammar) : g.collectionNames.Nodup :=
  (List.filter_sublist.map _).nodup g.rules.nodup_names

theorem shapesWithExtras_eq_ok {r : Rule}
    (h : (shapesWithExtras g o name r extras).outcome = .ok shapes) :
    ∃ own, (expandFresh g o r).1 = .ok own ∧
      shapes = if r.isCollection then addNew (firstSeen own) extras else firstSeen own := by
  obtain ⟨_, -, hShapes⟩ := Logged.outcome_bind_eq_ok_iff.mp h
  obtain ⟨own, hOwn, hResult⟩ := Logged.outcome_bind_eq_ok_iff.mp hShapes
  cases hResult
  exact ⟨own, hOwn, rfl⟩

theorem shapesOf_eq_ok (h : (shapesOf g o name).outcome = .ok shapes) :
    ∃ r extras, g.rules.get? name = some r ∧
      (r.isCollection = true → (extraShapes g o).outcome = .ok extras) ∧
      (shapesWithExtras g o name r extras).outcome = .ok shapes := by
  cases hRule : g.rules.get? name with
  | none =>
    have hGet : g.rule name = .error (.unknownRule name) := by rw [Grammar.rule, hRule]
    rw [shapesOf, hGet] at h
    cases h
  | some r =>
    have hGet : g.rule name = .ok r := by rw [Grammar.rule, hRule]
    rw [shapesOf, hGet] at h
    by_cases hCollection : r.isCollection = true
    · simp only [if_pos hCollection] at h
      obtain ⟨extras, hExtras, hShapes⟩ := Logged.outcome_bind_eq_ok_iff.mp h
      exact ⟨r, extras, rfl, fun _ => hExtras, hShapes⟩
    · simp only [if_neg hCollection] at h
      obtain ⟨extras, -, hShapes⟩ := Logged.outcome_bind_eq_ok_iff.mp h
      exact ⟨r, extras, rfl, fun h => absurd h hCollection, hShapes⟩

theorem outcome_shapesOf_of_isCollection {r : Rule}
    (hRule : g.rules.get? name = some r) (hCollection : r.isCollection = true)
    (hExtras : (extraShapes g o).outcome = .ok extras) :
    (shapesOf g o name).outcome = (shapesWithExtras g o name r extras).outcome := by
  have hGet : g.rule name = .ok r := by rw [Grammar.rule, hRule]
  simp only [shapesOf, hGet, if_pos hCollection, Logged.outcome_bind, hExtras, Except.bind]

variable (g o extras) in
def Answers (rule : String × Rule) (entry : String × List Shape) : Prop :=
  entry.1 = rule.1 ∧ (shapesWithExtras g o rule.1 rule.2 extras).outcome = .ok entry.2

theorem map_fst_of_answers {rs : List (String × Rule)} {answers : List (String × List Shape)}
    (h : List.Forall₂ (Answers g o extras) rs answers) : answers.map (·.1) = rs.map (·.1) := by
  induction h with
  | nil => rfl
  | cons hHead _ ih => rw [List.map_cons, List.map_cons, hHead.1, ih]

theorem addRules_eq_ok {schema s : Schema} {rs : List (String × Rule)}
    (hNames : (schema.names ++ rs.map (·.1)).Nodup) (h : (addRules g o extras schema rs).outcome = .ok s) :
    ∃ answers, s.entries = schema.entries ++ answers ∧
      List.Forall₂ (Answers g o extras) rs answers := by
  induction rs generalizing schema with
  | nil =>
    cases h
    exact ⟨[], (List.append_nil _).symm, .nil⟩
  | cons rule rest ih =>
    obtain ⟨name, r⟩ := rule
    obtain ⟨shapes, hShapes, hRest⟩ := Logged.outcome_bind_eq_ok_iff.mp h
    obtain ⟨hNew, hMore⟩ := Directory.nodup_names_insert hNames
    have hEntries : (schema.insert name shapes).entries = schema.entries ++ [(name, shapes)] :=
      Directory.entries_insert_of_not_mem hNew
    obtain ⟨answers, hAnswers, hAll⟩ := ih hMore hRest
    refine ⟨(name, shapes) :: answers, ?_, .cons ⟨rfl, hShapes⟩ hAll⟩
    rw [hAnswers, hEntries, List.append_assoc, List.singleton_append]

theorem addRules_eq_error_iff {schema : Schema} {rs : List (String × Rule)} {e : SchemaError} :
    (addRules g o extras schema rs).outcome = .error e ↔
      ∃ before rule after, rs = before ++ rule :: after ∧
        (∀ p ∈ before, ∃ shapes, (shapesWithExtras g o p.1 p.2 extras).outcome = .ok shapes) ∧
        (shapesWithExtras g o rule.1 rule.2 extras).outcome = .error e := by
  induction rs generalizing schema with
  | nil => simp [addRules, Logged.outcome_pure]
  | cons rule rest ih =>
    rw [addRules, Logged.outcome_bind_eq_error_iff]
    simp only [ih]
    constructor
    · rintro (hHead | ⟨shapes, hShapes, before, failing, after, rfl, hBefore, hFails⟩)
      · exact ⟨[], rule, rest, rfl, fun _ hNone => (by cases hNone), hHead⟩
      · exact ⟨rule :: before, failing, after, rfl,
          List.forall_mem_cons.mpr ⟨⟨shapes, hShapes⟩, hBefore⟩, hFails⟩
    · rintro ⟨before, failing, after, hSplit, hBefore, hFails⟩
      cases before with
      | nil =>
        cases hSplit
        exact Or.inl hFails
      | cons first before =>
        cases hSplit
        obtain ⟨⟨shapes, hShapes⟩, hBefore⟩ := List.forall_mem_cons.mp hBefore
        exact Or.inr ⟨shapes, hShapes, before, failing, after, rfl, hBefore, hFails⟩

theorem generate_eq_ok_iff {s : Schema} :
    (generate g o).outcome = .ok s ↔ ∃ extras, (extraShapes g o).outcome = .ok extras ∧
      (addRules g o extras .empty (g.rules.filter Rule.isCollection)).outcome = .ok s := by
  simp [generate, Logged.outcome_bind_eq_ok_iff, Logged.record, Logged.outcome_pure]

theorem generate_eq_error_iff {e : SchemaError} :
    (generate g o).outcome = .error e ↔ (extraShapes g o).outcome = .error e ∨
      ∃ extras, (extraShapes g o).outcome = .ok extras ∧
        (addRules g o extras .empty (g.rules.filter Rule.isCollection)).outcome = .error e := by
  simp [generate, Logged.outcome_bind_eq_error_iff, Logged.record, Logged.outcome_pure]

theorem outcome_shapesOf_of_mem {p : String × Rule} (hExtras : (extraShapes g o).outcome = .ok extras)
    (hp : p ∈ g.rules.filter Rule.isCollection) :
    (shapesOf g o p.1).outcome = (shapesWithExtras g o p.1 p.2 extras).outcome := by
  obtain ⟨hEntry, hCollection⟩ := List.mem_filter.mp hp
  exact outcome_shapesOf_of_isCollection (Directory.get?_eq_some_iff.mpr hEntry) hCollection hExtras

theorem exists_mem_of_answers {rs : List (String × Rule)} {answers : List (String × List Shape)}
    (h : List.Forall₂ (Answers g o extras) rs answers) {p : String × Rule} (hp : p ∈ rs) :
    ∃ shapes, (shapesWithExtras g o p.1 p.2 extras).outcome = .ok shapes ∧ (p.1, shapes) ∈ answers := by
  induction h with
  | nil => cases hp
  | @cons rule entry _ _ hHead _ ih =>
    rcases List.mem_cons.mp hp with rfl | hp
    · exact ⟨entry.2, hHead.2, List.mem_cons.mpr (Or.inl (Prod.ext hHead.1.symm rfl))⟩
    · obtain ⟨shapes, hShapes, hMem⟩ := ih hp
      exact ⟨shapes, hShapes, List.mem_cons_of_mem _ hMem⟩

theorem answers_of_addRules {s : Schema}
    (h : (addRules g o extras .empty (g.rules.filter Rule.isCollection)).outcome = .ok s) :
    List.Forall₂ (Answers g o extras) (g.rules.filter Rule.isCollection) s.entries := by
  have hNames : (Directory.names (.empty : Schema) ++ g.collectionNames).Nodup :=
    g.nodup_collectionNames
  obtain ⟨answers, hEntries, hAnswers⟩ := addRules_eq_ok hNames h
  rw [Directory.empty, List.nil_append] at hEntries
  rwa [hEntries]

theorem names_and_get?_of_generate {s : Schema} (h : (generate g o).outcome = .ok s) :
    s.names = g.collectionNames ∧
    ∀ n ∈ g.collectionNames, ∃ shapes, (shapesOf g o n).outcome = .ok shapes ∧ s.get? n = some shapes := by
  obtain ⟨extras, hExtras, hRules⟩ := generate_eq_ok_iff.mp h
  have hAnswers := answers_of_addRules hRules
  constructor
  · exact map_fst_of_answers hAnswers
  · intro n hn
    obtain ⟨p, hp, rfl⟩ := List.mem_map.mp hn
    obtain ⟨shapes, hShapes, hMem⟩ := exists_mem_of_answers hAnswers hp
    exact ⟨shapes, (outcome_shapesOf_of_mem hExtras hp).trans hShapes,
      Directory.get?_eq_some_iff.mpr hMem⟩

theorem shapesOf_of_get? {s : Schema} (h : (generate g o).outcome = .ok s) (hShapes : s.get? name = some shapes) :
    (shapesOf g o name).outcome = .ok shapes := by
  obtain ⟨hNames, hAnswers⟩ := names_and_get?_of_generate h
  obtain ⟨answer, hAnswer, hStored⟩ := hAnswers name (hNames ▸ Directory.mem_names_of_get? hShapes)
  obtain rfl : answer = shapes := Option.some.inj (hStored.symm.trans hShapes)
  exact hAnswer

theorem error_of_generate {e : SchemaError} (h : (generate g o).outcome = .error e) :
    (extraShapes g o).outcome = .error e ∨
    (∃ extras, (extraShapes g o).outcome = .ok extras) ∧
      ∃ before n after, g.collectionNames = before ++ n :: after ∧
        (∀ m ∈ before, ∃ shapes, (shapesOf g o m).outcome = .ok shapes) ∧
        (shapesOf g o n).outcome = .error e := by
  rcases generate_eq_error_iff.mp h with hExtras | ⟨extras, hExtras, hRules⟩
  · exact Or.inl hExtras
  · obtain ⟨before, p, after, hSplit, hBefore, hFails⟩ := addRules_eq_error_iff.mp hRules
    -- the extras are known here, so that the pass and the queries give the same for each rule
    have hAnswer : ∀ q ∈ before ++ p :: after,
        (shapesOf g o q.1).outcome = (shapesWithExtras g o q.1 q.2 extras).outcome :=
      fun q hq => outcome_shapesOf_of_mem hExtras (hSplit ▸ hq)
    refine Or.inr ⟨⟨extras, hExtras⟩, before.map (·.1), p.1, after.map (·.1), ?_, ?_, ?_⟩
    · rw [Grammar.collectionNames, hSplit, List.map_append, List.map_cons]
    · intro m hm
      obtain ⟨q, hq, rfl⟩ := List.mem_map.mp hm
      obtain ⟨shapes, hShapes⟩ := hBefore q hq
      exact ⟨shapes, (hAnswer q (List.mem_append_left _ hq)).trans hShapes⟩
    · exact (hAnswer p (List.mem_append_right _ List.mem_cons_self)).trans hFails

/-- A schema is generated if and only if the extras and the queries of all collection rules succeed. It
then has exactly the collection rules, in the order of the grammar, each with the list that its query gives.
Otherwise the error is that of the extras, or else that of the first collection rule whose query fails. -/
theorem generate_agrees_with_queries (g : Grammar) (o : Options) :
    ((∃ s, (generate g o).outcome = .ok s) ↔
      (∃ extras, (extraShapes g o).outcome = .ok extras) ∧
        ∀ n ∈ g.collectionNames, ∃ shapes, (shapesOf g o n).outcome = .ok shapes) ∧
    (∀ s, (generate g o).outcome = .ok s →
      s.names = g.collectionNames ∧
      (∀ n ∈ g.collectionNames, ∃ shapes,
        (shapesOf g o n).outcome = .ok shapes ∧ s.get? n = some shapes) ∧
      ∀ n, n ∉ g.collectionNames → s.get? n = none) ∧
    (∀ e, (generate g o).outcome = .error e →
      (extraShapes g o).outcome = .error e ∨
      (∃ extras, (extraShapes g o).outcome = .ok extras) ∧
        ∃ before n after, g.collectionNames = before ++ n :: after ∧
          (∀ m ∈ before, ∃ shapes, (shapesOf g o m).outcome = .ok shapes) ∧
          (shapesOf g o n).outcome = .error e) := by
  refine ⟨⟨?_, ?_⟩, ?_, fun e h => error_of_generate h⟩
  · rintro ⟨s, h⟩
    obtain ⟨extras, hExtras, -⟩ := generate_eq_ok_iff.mp h
    refine ⟨⟨extras, hExtras⟩, fun n hn => ?_⟩
    obtain ⟨shapes, hShapes, -⟩ := (names_and_get?_of_generate h).2 n hn
    exact ⟨shapes, hShapes⟩
  · rintro ⟨⟨extras, hExtras⟩, hQueries⟩
    cases h : (generate g o).outcome with
    | ok s => exact ⟨s, rfl⟩
    | error e =>
      rcases error_of_generate h with hFails | ⟨-, before, n, after, hSplit, -, hFails⟩
      · rw [hExtras] at hFails
        cases hFails
      · have hn : n ∈ g.collectionNames := hSplit ▸ List.mem_append_right _ List.mem_cons_self
        obtain ⟨shapes, hShapes⟩ := hQueries n hn
        rw [hShapes] at hFails
        cases hFails
  · intro s h
    obtain ⟨hNames, hAnswers⟩ := names_and_get?_of_generate h
    exact ⟨hNames, hAnswers, fun n hn => Directory.get?_eq_none_iff.mpr (hNames ▸ hn)⟩

end GrammarShapes
