import GrammarShapes.Proofs.Schema.Queries

set_option autoImplicit false

/-! # Schemas with and without extras

Extras only ever add. Expansion does not look at whether they are included, so that a rule has the same
shapes of its own in both cases. Behind these a collection rule gets the shapes of the extras, each extra
expanded with nothing known, as far as they are new.
-/

namespace GrammarShapes

def Options.withExtras (o : Options) (included : Bool) : Options :=
  { o with includeExtras := included }

/-- Whether the second list of a rule has, behind the first, what the extras add to it. -/
structure Extends (g : Grammar) (o : Options) (r : Rule) (plain full : List Shape) : Prop where
  own : ∃ shapes, (expandFresh g o r).1 = .ok shapes ∧ plain = shapes.eraseDups
  extras : r.isCollection = true →
    ∃ lists, List.Forall₂ (fun extra shapes => (expandFresh g o extra).1 = .ok shapes) g.extras lists ∧
      full = plain ++ lists.flatten.eraseDups.filter (· ∉ plain)
  same : r.isCollection = false → full = plain

variable {g : Grammar} {o : Options} {name : String} {r : Rule} {shapes plain full extras : List Shape}
  {included : Bool}

theorem expandNode_withExtras (expand : Rule → Expansion) :
    expandNode g (o.withExtras included) expand = expandNode g o expand :=
  rfl

theorem expandWithin_withExtras (room : Nat) :
    expandWithin g (o.withExtras included) room = expandWithin g o room := by
  induction room with
  | zero => rfl
  | succ room ih =>
    funext r e
    rw [expandWithin, expandWithin, ih, expandNode_withExtras]

theorem expandFresh_withExtras (r : Rule) : expandFresh g (o.withExtras included) r = expandFresh g o r :=
  congrFun (congrFun (expandWithin_withExtras maxDepth) r) {}

/-- Each extra adds what it has alone to what the extras before it gave. -/
theorem addShapesOf_eq_ok {seen : List Shape} {rs : List Rule}
    (h : (addShapesOf g o seen rs).outcome = .ok shapes) :
    ∃ lists, List.Forall₂ (fun r own => (expandFresh g o r).1 = .ok own) rs lists ∧
      shapes = addNew seen lists.flatten := by
  induction rs generalizing seen with
  | nil =>
    cases h
    exact ⟨[], .nil, rfl⟩
  | cons r rest ih =>
    obtain ⟨own, hOwn, hRest⟩ := Logged.outcome_bind_eq_ok_iff.mp h
    obtain ⟨lists, hLists, rfl⟩ := ih hRest
    exact ⟨own :: lists, .cons hOwn hLists, (addNew_append seen own lists.flatten).symm⟩

theorem extraShapes_withExtras_true (h : (extraShapes g (o.withExtras true)).outcome = .ok extras) :
    ∃ lists, List.Forall₂ (fun extra shapes => (expandFresh g o extra).1 = .ok shapes) g.extras lists ∧
      extras = firstSeen lists.flatten := by
  obtain ⟨lists, hLists, hExtras⟩ := addShapesOf_eq_ok h
  refine ⟨lists, hLists.imp fun extra own hOwn => ?_, hExtras⟩
  rwa [expandFresh_withExtras] at hOwn

theorem shapesOf_withExtras_false (h : (shapesOf g (o.withExtras false) name).outcome = .ok plain) :
    ∃ r own, g.rules.get? name = some r ∧ (expandFresh g o r).1 = .ok own ∧ plain = firstSeen own := by
  obtain ⟨r, extras, hRule, hExtras, hShapes⟩ := shapesOf_eq_ok h
  obtain ⟨own, hOwn, rfl⟩ := shapesWithExtras_eq_ok hShapes
  rw [expandFresh_withExtras] at hOwn
  refine ⟨r, own, hRule, hOwn, ?_⟩
  split
  · rename_i hCollection
    cases hExtras hCollection
    rfl
  · rfl

theorem Extends.of_shapesOf (hPlain : (shapesOf g (o.withExtras false) name).outcome = .ok plain)
    (hFull : (shapesOf g (o.withExtras true) name).outcome = .ok full) :
    ∃ r, g.rules.get? name = some r ∧ Extends g o r plain full := by
  obtain ⟨r, own, hRule, hOwn, rfl⟩ := shapesOf_withExtras_false hPlain
  obtain ⟨r', extras, hRule', hExtras, hShapes⟩ := shapesOf_eq_ok hFull
  obtain rfl : r = r' := Option.some.inj (hRule.symm.trans hRule')
  obtain ⟨own', hOwn', rfl⟩ := shapesWithExtras_eq_ok hShapes
  rw [expandFresh_withExtras] at hOwn'
  obtain rfl : own = own' := Except.ok.inj (hOwn.symm.trans hOwn')
  refine ⟨r, hRule, ⟨own, hOwn, firstSeen_eq_eraseDups own⟩, ?_, ?_⟩
  · intro hCollection
    obtain ⟨lists, hLists, rfl⟩ := extraShapes_withExtras_true (hExtras hCollection)
    rw [if_pos hCollection, addNew_firstSeen]
    exact ⟨lists, hLists, rfl⟩
  · intro hAlone
    rw [hAlone]
    rfl

theorem nodup_of_shapesOf (h : (shapesOf g o name).outcome = .ok shapes) : shapes.Nodup := by
  obtain ⟨r, extras, -, -, hShapes⟩ := shapesOf_eq_ok h
  obtain ⟨own, -, rfl⟩ := shapesWithExtras_eq_ok hShapes
  split
  · exact nodup_addNew (nodup_firstSeen own)
  · exact nodup_firstSeen own

/-- Without extras a rule has the first occurrences among the shapes of its own. With extras it has the same
list, followed, if it is a collection, by the first occurrences among the shapes of the extras that are not
in it yet. No list has a shape twice. All of this holds of the queries and of the lists in a schema. -/
theorem extras_extend (g : Grammar) (o : Options) :
    (∀ name plain full, (shapesOf g (o.withExtras false) name).outcome = .ok plain →
      (shapesOf g (o.withExtras true) name).outcome = .ok full →
      ∃ r, g.rules.get? name = some r ∧ Extends g o r plain full) ∧
    (∀ name shapes, (shapesOf g o name).outcome = .ok shapes → shapes.Nodup) ∧
    (∀ s t, (generate g (o.withExtras false)).outcome = .ok s →
      (generate g (o.withExtras true)).outcome = .ok t →
      s.names = t.names ∧
      ∀ name plain full, s.get? name = some plain → t.get? name = some full →
        ∃ r, g.rules.get? name = some r ∧ Extends g o r plain full) ∧
    (∀ s, (generate g o).outcome = .ok s → ∀ name shapes, s.get? name = some shapes → shapes.Nodup) := by
  refine ⟨fun _ _ _ => Extends.of_shapesOf, fun _ _ => nodup_of_shapesOf, fun s t hs ht => ⟨?_, ?_⟩, ?_⟩
  · rw [(names_and_get?_of_generate hs).1, (names_and_get?_of_generate ht).1]
  · intro name plain full hPlain hFull
    exact Extends.of_shapesOf (shapesOf_of_get? hs hPlain) (shapesOf_of_get? ht hFull)
  · intro s hs name shapes hShapes
    exact nodup_of_shapesOf (shapesOf_of_get? hs hShapes)

def spaced : Grammar :=
  ((((((Grammar.withRule {} "list" (.sequence [.symbol "_item", .symbol "comment", .symbol "_item"])).withRule
    "_item" (.choice [.literal "x", .literal ";", .literal "x"])).withRule
    "comment" (.pattern "#.*" none)).withRule
    "_space" (.choice [.pattern " " none, .literal "\n", .literal ";"])).withExtra (.symbol "_space")).withExtra
    (.symbol "comment")).withExtra (.sequence [.literal "\t", .symbol "_space"])

theorem spaced_extras_extend :
    (∃ r, spaced.rules.get? "list" = some r ∧ Extends spaced {} r
      [.literal "x", .literal ";", .symbol "comment"]
      [.literal "x", .literal ";", .symbol "comment", .pattern, .literal "\n", .literal "\t"]) ∧
    (∃ r, spaced.rules.get? "comment" = some r ∧ Extends spaced {} r [.pattern] [.pattern]) ∧
    [Shape.pattern].Nodup ∧
    (∃ s t, (generate spaced (Options.withExtras {} false)).outcome = .ok s ∧
      (generate spaced (Options.withExtras {} true)).outcome = .ok t ∧ s.names = t.names ∧
      ∃ full, t.get? "_space" = some full ∧ full.Nodup ∧
        ∃ r, spaced.rules.get? "_space" = some r ∧
          Extends spaced {} r [.pattern, .literal "\n", .literal ";"] full) := by
  obtain ⟨hQueries, hNodup, hSchemas, hStored⟩ := extras_extend spaced {}
  obtain ⟨hNames, hLists⟩ := hSchemas _ _ rfl rfl
  exact ⟨hQueries "list" _ _ rfl rfl, hQueries "comment" _ _ rfl rfl, hNodup "comment" _ rfl,
    _, _, rfl, rfl, hNames, _, rfl, hStored _ rfl "_space" _ rfl, hLists "_space" _ _ rfl rfl⟩

end GrammarShapes
