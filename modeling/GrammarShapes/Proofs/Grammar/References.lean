import GrammarShapes.Grammar.Basic

set_option autoImplicit false

/-! # References

The names that a work list of nodes gives are those of its nodes, one node after the other, and a node gives
its own name, if it is a symbol, before those of its direct sub-rules. A grammar whose references have been
checked has no dangling one in any rule or extra.

`Rule.preorder` goes through the nodes by recursion and keeps no list of work. `referencesOf_eq_filterMap`
compares the two for every work list: what is left to be done is the traversals of its nodes, in order.
-/

namespace GrammarShapes

namespace Rule

theorem size_le_sizeAll_of_mem {r : Rule} {rs : List Rule} (h : r ∈ rs) : r.size ≤ sizeAll rs := by
  induction rs with
  | nil => cases h
  | cons s rest ih =>
    rw [sizeAll]
    rcases List.mem_cons.mp h with rfl | h
    · omega
    · have hRest := ih h
      omega

theorem inductionOnChildren {motive : Rule → Prop}
    (step : ∀ r : Rule, (∀ c ∈ r.children, motive c) → motive r) (r : Rule) : motive r := by
  induction hSize : r.size using Nat.strongRecOn generalizing r with
  | ind n ih =>
    subst hSize
    apply step
    intro c hc
    apply ih c.size _ c rfl
    rw [size_eq r]
    have hLe := size_le_sizeAll_of_mem hc
    omega

theorem referencesOf_append (rs ss : List Rule) :
    referencesOf (rs ++ ss) = referencesOf rs ++ referencesOf ss := by
  fun_induction referencesOf rs with
  | case1 => rfl
  | case2 r rest ih =>
    rw [List.append_assoc] at ih
    rw [List.cons_append, referencesOf, ih, List.append_assoc]

theorem referencesOf_eq_flatMap (rs : List Rule) : referencesOf rs = rs.flatMap references := by
  induction rs with
  | nil => rw [referencesOf, List.flatMap_nil]
  | cons r rest ih =>
    rw [← List.singleton_append, referencesOf_append, ih, List.flatMap_append, List.flatMap_singleton]
    rfl

theorem references_eq (r : Rule) :
    r.references = r.symbol?.toList ++ r.children.flatMap references := by
  rw [references, referencesOf, List.append_nil, referencesOf_eq_flatMap]

mutual

/-- A node and all nodes below it: a node before its direct sub-rules, these in the order in which they are
declared. -/
def preorder : Rule → List Rule
  | .blank => [.blank]
  | .literal text => [.literal text]
  | .pattern regex flags => [.pattern regex flags]
  | .symbol name => [.symbol name]
  | .alias content named name => .alias content named name :: preorder content
  | .field name content => .field name content :: preorder content
  | .sequence members => .sequence members :: preorderAll members
  | .choice members => .choice members :: preorderAll members
  | .zeroOrMore content => .zeroOrMore content :: preorder content
  | .oneOrMore content => .oneOrMore content :: preorder content
  | .ranked precedence content => .ranked precedence content :: preorder content
  | .rankedLeft precedence content => .rankedLeft precedence content :: preorder content

def preorderAll : List Rule → List Rule
  | [] => []
  | r :: rest => preorder r ++ preorderAll rest

end

def symbolNames (r : Rule) : List String :=
  r.preorder.filterMap symbol?

theorem preorderAll_eq_flatMap (rs : List Rule) : preorderAll rs = rs.flatMap preorder := by
  induction rs with
  | nil => rfl
  | cons r rest ih => rw [preorderAll, ih, List.flatMap_cons]

theorem preorder_eq (r : Rule) : r.preorder = r :: r.children.flatMap preorder := by
  rw [← preorderAll_eq_flatMap]
  cases r <;> simp only [preorder, preorderAll, children, List.append_nil]

theorem referencesOf_eq_filterMap (rs : List Rule) :
    referencesOf rs = (rs.flatMap preorder).filterMap symbol? := by
  fun_induction referencesOf rs with
  | case1 => rfl
  | case2 r rest ih =>
    -- The direct sub-rules are in front of the rest, as their traversals are in that of the node.
    rw [ih, List.flatMap_append, List.flatMap_cons, preorder_eq, List.cons_append]
    cases hSymbol : r.symbol? with
    | none => rw [List.filterMap_cons_none hSymbol, Option.toList_none, List.nil_append]
    | some name => rw [List.filterMap_cons_some hSymbol, Option.toList_some, List.singleton_append]

theorem references_eq_symbolNames (r : Rule) : r.references = r.symbolNames := by
  rw [references, referencesOf_eq_filterMap, List.flatMap_singleton, symbolNames]

end Rule

namespace Grammar

theorem checkReferences_eq_ok_iff {g : Grammar} :
    g.checkReferences = .ok () ↔ ∀ r ∈ g.roots, ∀ name ∈ r.references, g.resolves name = true := by
  have hNone : g.checkReferences = .ok () ↔ g.firstDangling g.roots = none := by
    unfold checkReferences
    cases g.firstDangling g.roots <;> simp
  rw [hNone, firstDangling_eq_find?, List.find?_eq_none]
  simp only [List.mem_flatMap, Bool.not_eq_true', Bool.not_eq_false]
  constructor
  · exact fun h r hr name hName => h name ⟨r, hr, hName⟩
  · rintro h name ⟨r, hr, hName⟩
    exact h r hr name hName

def symbolNames (g : Grammar) : List String :=
  g.rules.values.flatMap Rule.symbolNames ++ g.extras.flatMap Rule.symbolNames

theorem firstDangling_roots (g : Grammar) :
    g.firstDangling g.roots = g.symbolNames.find? fun name => !g.resolves name := by
  have hNames : Rule.references = Rule.symbolNames := funext Rule.references_eq_symbolNames
  rw [firstDangling_eq_find?, hNames, roots, List.flatMap_append, symbolNames]

theorem checkReferences_eq_error_iff {g : Grammar} {e : SchemaError} :
    g.checkReferences = .error e ↔ ∃ name, g.firstDangling g.roots = some name ∧ e = .unknownRule name := by
  unfold checkReferences
  cases g.firstDangling g.roots <;> simp [eq_comm]

/-- The references of a node are the names that its traversal comes to, one after the other. The check of a
grammar goes through those of its rules and then of its extras: it succeeds if all of them resolve, and else
fails with the first that does not. -/
theorem references_and_check_in_preorder :
    (∀ r : Rule, r.references = r.symbolNames) ∧
    ∀ g : Grammar,
      (g.checkReferences = .ok () ↔ ∀ name ∈ g.symbolNames, g.resolves name = true) ∧
      ∀ e, g.checkReferences = .error e ↔
        ∃ before name after, g.symbolNames = before ++ name :: after ∧
          (∀ other ∈ before, g.resolves other = true) ∧ g.resolves name = false ∧
          e = .unknownRule name := by
  refine ⟨Rule.references_eq_symbolNames, fun g => ⟨?_, fun e => ?_⟩⟩
  · rw [checkReferences_eq_ok_iff, roots, List.forall_mem_append, symbolNames, List.forall_mem_append]
    simp only [Rule.references_eq_symbolNames, List.forall_mem_flatMap]
  · rw [checkReferences_eq_error_iff, firstDangling_roots]
    simp only [List.find?_eq_some_iff_append, Bool.not_eq_true', Bool.not_not]
    constructor
    · rintro ⟨name, ⟨hDangling, before, after, hSplit, hBefore⟩, hError⟩
      exact ⟨before, name, after, hSplit, hBefore, hDangling, hError⟩
    · rintro ⟨before, name, after, hSplit, hBefore, hDangling, hError⟩
      exact ⟨name, ⟨hDangling, before, after, hSplit, hBefore⟩, hError⟩

end Grammar

end GrammarShapes
