import GrammarShapes.Grammar.Sample
import GrammarShapes.Schema.Generation

set_option autoImplicit false

/-! # Visible rules are opaque

Expansion looks into a rule only if the rule is hidden; of a visible one it asks no more than whether there
is one of its name. Grammars that differ in the bodies of visible rules can therefore not be told apart by
the query of a rule that they share, nor by that of the extras. Only the step that expands a symbol reads
the grammar at all, so that it is the one place where the two runs could part.
-/

namespace GrammarShapes

/-- Whether two grammars differ at most in their names, in the order of their rules, and in the bodies of
the visible ones. -/
structure AgreeOnHidden (o : Options) (g g' : Grammar) : Prop where
  names : ∀ name, name ∈ g.rules.names ↔ name ∈ g'.rules.names
  extras : g.extras = g'.extras
  externals : g.externals = g'.externals
  bodies : ∀ name, o.isHidden name = true → g.rules.get? name = g'.rules.get? name

theorem Directory.contains_iff {α : Type} {d : Directory α} {name : String} :
    d.contains name = true ↔ name ∈ d.names := by
  simp [contains, names]

namespace AgreeOnHidden

variable {g g' : Grammar} {o : Options}

theorem resolves_eq (h : AgreeOnHidden o g g') (name : String) :
    g.resolves name = g'.resolves name := by
  have hContains : g.rules.contains name = g'.rules.contains name := by
    rw [Bool.eq_iff_iff, Directory.contains_iff, Directory.contains_iff]
    exact h.names name
  rw [Grammar.resolves, Grammar.resolves, hContains, Grammar.isExternal, Grammar.isExternal, h.externals]

theorem expandSymbol_eq (h : AgreeOnHidden o g g') (expand : Rule → Expansion) (name : String) :
    expandSymbol g o expand name = expandSymbol g' o expand name := by
  funext e
  simp only [expandSymbol, h.resolves_eq name]
  -- The body is asked for only after the name has been found to be hidden.
  cases hHidden : o.isHidden name with
  | false => rfl
  | true => rw [h.bodies name hHidden]

theorem expandNode_eq (h : AgreeOnHidden o g g') (expand : Rule → Expansion) :
    expandNode g o expand = expandNode g' o expand := by
  funext r
  cases r with
  | symbol name => exact h.expandSymbol_eq expand name
  | _ => rfl

theorem expandWithin_eq (h : AgreeOnHidden o g g') (room : Nat) :
    expandWithin g o room = expandWithin g' o room := by
  induction room with
  | zero => rfl
  | succ room ih =>
    funext r e
    rw [expandWithin, expandWithin, h.expandNode_eq, ih]

theorem shapesOfNode_eq (h : AgreeOnHidden o g g') (r : Rule) :
    shapesOfNode g o r = shapesOfNode g' o r := by
  have hFresh : expandFresh g o r = expandFresh g' o r := by
    rw [expandFresh, expandFresh, expand, expand, h.expandWithin_eq]
  rw [shapesOfNode, shapesOfNode, hFresh]

theorem addShapesOf_eq (h : AgreeOnHidden o g g') (seen : List Shape) (rs : List Rule) :
    addShapesOf g o seen rs = addShapesOf g' o seen rs := by
  induction rs generalizing seen with
  | nil => rfl
  | cons r rest ih => simp only [addShapesOf, h.shapesOfNode_eq, ih]

theorem extraShapes_eq (h : AgreeOnHidden o g g') : extraShapes g o = extraShapes g' o := by
  rw [extraShapes, extraShapes, h.extras, h.addShapesOf_eq]

theorem shapesWithExtras_eq (h : AgreeOnHidden o g g') (name : String) (r : Rule) (extras : List Shape) :
    shapesWithExtras g o name r extras = shapesWithExtras g' o name r extras := by
  rw [shapesWithExtras, shapesWithExtras, h.shapesOfNode_eq]

theorem withRule {name : String} (hVisible : o.isHidden name = false) (hName : name ∈ g.rules.names)
    (body : Rule) : AgreeOnHidden o g (g.withRule name body) where
  names other := by
    rw [Grammar.withRule, Directory.names_insert]
    exact ⟨Or.inr, fun h => h.elim (fun hSame => hSame ▸ hName) id⟩
  extras := rfl
  externals := rfl
  bodies other hHidden := by
    have hne : other ≠ name := by
      rintro rfl
      rw [hVisible] at hHidden
      cases hHidden
    rw [Grammar.withRule, Directory.get?_insert, if_neg hne]

end AgreeOnHidden

/-- If two grammars agree on the hidden rules, the query of any rule with the same body in both has the same
outcome in both, shapes or error, and leaves the same records, and so does the query of the extras. -/
theorem queries_eq_of_agreeOnHidden {g g' : Grammar} {o : Options} (h : AgreeOnHidden o g g') :
    (∀ name, g.rules.get? name = g'.rules.get? name → shapesOf g o name = shapesOf g' o name) ∧
    extraShapes g o = extraShapes g' o := by
  refine ⟨fun name hBody => ?_, h.extraShapes_eq⟩
  have hRule : g.rule name = g'.rule name := by
    rw [Grammar.rule, Grammar.rule, hBody]
  simp only [shapesOf, hRule, h.extraShapes_eq, h.shapesWithExtras_eq]

/-- The statements of the sample grammar lead through hidden rules to `binary_expression`, whose body does
not matter to them, even if a reference in it dangles. -/
theorem queries_of_sample_with_other_bodies :
    shapesOf Grammar.Sample.arithmetic {} "program" =
        shapesOf (Grammar.Sample.arithmetic.withRule "binary_expression" (.symbol "gone")) {} "program" ∧
      (shapesOf Grammar.Sample.arithmetic {} "program").outcome =
        .ok [.symbol "assignment", .symbol "identifier", .symbol "number", .symbol "binary_expression",
          .symbol "parenthesized", .literal ";", .pattern, .symbol "comment"] := by
  have hAgree : AgreeOnHidden {} Grammar.Sample.arithmetic
      (Grammar.Sample.arithmetic.withRule "binary_expression" (.symbol "gone")) :=
    .withRule (by decide) (by decide) _
  exact ⟨(queries_eq_of_agreeOnHidden hAgree).1 "program" (by decide), rfl⟩

end GrammarShapes
