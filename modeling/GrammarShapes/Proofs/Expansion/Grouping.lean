import GrammarShapes.Proofs.Expansion.Plain

set_option autoImplicit false

/-! # Grouping does not matter

Precedence, repetition and grouping have no influence on shapes. `Rule.flattened` removes them: of a
repetition or a precedence only the content stays, a choice becomes a sequence, and a sequence in a sequence
is replaced by its members. A node and its flattened form are expanded in lockstep, with the same shapes
remembered at every point; only the levels differ, of which the flattened form needs no more.

A node in a row is compared with a row, because the members of a sequence may stand for it. Hence each node
is followed in two ways: as a node, and as the row by which it is replaced.
-/

namespace GrammarShapes

namespace Rule

/-- What stands for a member of a sequence: the members of the sequence that it is, or else itself. -/
def spliced : Rule → List Rule
  | .sequence members => members
  | r => [r]

mutual

/-- The rule without precedences, repetitions, choices, and sequences that are members of sequences. -/
def flattened : Rule → Rule
  | .sequence members => .sequence (flattenedRow members)
  | .choice members => .sequence (flattenedRow members)
  | .zeroOrMore content => flattened content
  | .oneOrMore content => flattened content
  | .ranked _ content => flattened content
  | .rankedLeft _ content => flattened content
  | .alias content named name => .alias (flattened content) named name
  | .field name content => .field name (flattened content)
  | .blank => .blank
  | .literal text => .literal text
  | .pattern regex flags => .pattern regex flags
  | .symbol name => .symbol name

def flattenedRow : List Rule → List Rule
  | [] => []
  | r :: rest => (flattened r).spliced ++ flattenedRow rest

end

mutual

def isFlat : Rule → Bool
  | .sequence members => isFlatRow members
  | .choice _ => false
  | .zeroOrMore _ => false
  | .oneOrMore _ => false
  | .ranked _ _ => false
  | .rankedLeft _ _ => false
  | .alias content _ _ => isFlat content
  | .field _ content => isFlat content
  | .blank => true
  | .literal _ => true
  | .pattern _ _ => true
  | .symbol _ => true

def isFlatRow : List Rule → Bool
  | [] => true
  | r :: rest => r.tag != .sequence && isFlat r && isFlatRow rest

end

theorem isFlatRow_append {rs ss : List Rule} (hHead : isFlatRow rs = true) (hRest : isFlatRow ss = true) :
    isFlatRow (rs ++ ss) = true := by
  induction rs with
  | nil => exact hRest
  | cons r rs ih =>
    rw [isFlatRow, Bool.and_eq_true] at hHead
    rw [List.cons_append, isFlatRow, hHead.1, ih hHead.2]
    rfl

theorem isFlatRow_spliced {r : Rule} (h : r.isFlat = true) : isFlatRow r.spliced = true := by
  cases r with
  | sequence members => exact h
  | blank | literal _ | pattern _ _ | symbol _ => rfl
  | «alias» content _ _ | field _ content =>
    change (true && content.isFlat && true) = true
    rw [show content.isFlat = true from h]
    rfl
  | choice _ | zeroOrMore _ | oneOrMore _ | ranked _ _ | rankedLeft _ _ => cases h

mutual

theorem isFlat_flattened : ∀ r : Rule, r.flattened.isFlat = true
  | .sequence members => isFlatRow_flattenedRow members
  | .choice members => isFlatRow_flattenedRow members
  | .zeroOrMore content => isFlat_flattened content
  | .oneOrMore content => isFlat_flattened content
  | .ranked _ content => isFlat_flattened content
  | .rankedLeft _ content => isFlat_flattened content
  | .alias content _ _ => isFlat_flattened content
  | .field _ content => isFlat_flattened content
  | .blank => rfl
  | .literal _ => rfl
  | .pattern _ _ => rfl
  | .symbol _ => rfl

theorem isFlatRow_flattenedRow : ∀ rs : List Rule, isFlatRow (flattenedRow rs) = true
  | [] => rfl
  | r :: rest => isFlatRow_append (isFlatRow_spliced (isFlat_flattened r)) (isFlatRow_flattenedRow rest)

end

end Rule

theorem Directory.get?_map {α β : Type} (d : Directory α) (f : α → β) (name : String) :
    (d.map f).get? name = (d.get? name).map f := by
  change (d.entries.map fun e => (e.1, f e.2)).lookup name = (d.entries.lookup name).map f
  induction d.entries with
  | nil => rfl
  | cons e entries ih =>
    rw [List.map_cons, List.lookup_cons, List.lookup_cons, ih]
    split <;> rfl

def Grammar.flattened (g : Grammar) : Grammar :=
  { g with rules := g.rules.map Rule.flattened }

theorem Grammar.resolves_flattened (g : Grammar) (name : String) :
    g.flattened.resolves name = g.resolves name := by
  have hContains : (g.rules.map Rule.flattened).contains name = g.rules.contains name := by
    simp only [Directory.contains, Directory.map, List.any_map]
    rfl
  exact congrArg (· || g.isExternal name) hContains

/-- Whether from the same shapes remembered the second expansion gives what the first gives and leaves the
same remembered, unless the first runs out of levels. -/
def Expansion.MatchedBy (x y : Expansion) : Prop :=
  ∀ e e', e'.memo = e.memo → ¬ Overruns (x e).1 → (y e').1 = (x e).1 ∧ (y e').2.memo = (x e).2.memo

variable {g : Grammar} {o : Options} {expand expand' : Rule → Expansion} {x y : Expansion}

namespace Expansion

theorem concat_append_of_error {rs ss : List Rule} {e e' : Expander} {err : SchemaError}
    (h : concat expand rs e = (.error err, e')) : concat expand (rs ++ ss) e = (.error err, e') := by
  induction rs generalizing e e' with
  | nil => cases h
  | cons r rest ih =>
    rw [List.cons_append]
    rcases concat_cons_eq_error h with hFails | ⟨own, e₁, hOwn, hRest⟩
    · rw [concat_cons_of_error hFails]
    · rw [concat_cons_eq_map hOwn, ih hRest]
      rfl

theorem concat_append_of_ok {rs ss : List Rule} {e e₁ : Expander} {own : List Shape}
    (h : concat expand rs e = (.ok own, e₁)) :
    concat expand (rs ++ ss) e =
      ((concat expand ss e₁).1.map (own ++ ·), (concat expand ss e₁).2) := by
  induction rs generalizing e own with
  | nil =>
    cases h
    refine Prod.ext ?_ rfl
    rw [List.nil_append]
    cases (concat expand ss e₁).1 <;> rfl
  | cons r rest ih =>
    obtain ⟨first, e₂, more, hFirst, hMore, rfl⟩ := concat_cons_eq_ok h
    rw [List.cons_append, concat_cons_eq_map hFirst, ih hMore]
    refine Prod.ext ?_ rfl
    cases (concat expand ss e₁).1 with
    | error _ => rfl
    | ok list => exact congrArg Except.ok (List.append_assoc first more list).symm

namespace MatchedBy

theorem of_state_eq {result : Except SchemaError (List Shape)} (hx : ∀ e, x e = (result, e))
    (hy : ∀ e, y e = (result, e)) : x.MatchedBy y := by
  intro e e' hMemo _
  rw [hx, hy]
  exact ⟨rfl, hMemo⟩

theorem concat_cons {r : Rule} {rest row rest' : List Rule} (hHead : (expand r).MatchedBy (concat expand' row))
    (hRest : (concat expand rest).MatchedBy (concat expand' rest')) :
    (concat expand (r :: rest)).MatchedBy (concat expand' (row ++ rest')) := by
  intro e e' hMemo hOver
  cases hOwn : expand r e with
  | mk result e₁ =>
    have hHead := hHead e e' hMemo
    rw [hOwn] at hHead
    cases result with
    | error err =>
      rw [concat_cons_of_error hOwn] at hOver ⊢
      obtain ⟨hResult, hMemo₁⟩ := hHead hOver
      have hRow : concat expand' row e' = (.error err, (concat expand' row e').2) := Prod.ext hResult rfl
      rw [concat_append_of_error hRow]
      exact ⟨rfl, hMemo₁⟩
    | ok own =>
      rw [concat_cons_eq_map hOwn] at hOver ⊢
      obtain ⟨hResult, hMemo₁⟩ := hHead (not_overruns_ok own)
      have hRow : concat expand' row e' = (.ok own, (concat expand' row e').2) := Prod.ext hResult rfl
      rw [concat_append_of_ok hRow]
      obtain ⟨hMore, hMemo₂⟩ := hRest _ _ hMemo₁ fun hMore => hOver (overruns_map_iff.mpr hMore)
      exact ⟨congrArg (Except.map (own ++ ·)) hMore, hMemo₂⟩

theorem first (h : x.MatchedBy y) : x.first.MatchedBy y.first := by
  intro e e' hMemo hOver
  rw [first_eq_map] at hOver
  rw [first_eq_map, first_eq_map]
  obtain ⟨hResult, hMemo'⟩ := h e e' hMemo fun hOwn => hOver (overruns_map_iff.mpr hOwn)
  exact ⟨congrArg (Except.map (·.take 1)) hResult, hMemo'⟩

theorem inline {name : String} {body body' : Rule} (h : (expand body).MatchedBy (expand' body')) :
    (inline expand name body).MatchedBy (inline expand' name body') := by
  intro e e' hMemo hOver
  have hBody := h ((e.remember name []).report (.ruleInlined name))
    ((e'.remember name []).report (.ruleInlined name)) (congrArg ((name, []) :: ·) hMemo)
  cases hOwn : expand body ((e.remember name []).report (.ruleInlined name)) with
  | mk result e₁ =>
    cases hOwn' : expand' body' ((e'.remember name []).report (.ruleInlined name)) with
    | mk result' e₁' =>
      rw [hOwn, hOwn'] at hBody
      cases result with
      | error err =>
        rw [inline_of_error hOwn] at hOver ⊢
        obtain ⟨rfl, hMemo₁⟩ := hBody hOver
        rw [inline_of_error hOwn']
        exact ⟨rfl, hMemo₁⟩
      | ok own =>
        obtain ⟨rfl, hMemo₁⟩ := hBody (not_overruns_ok own)
        rw [inline_of_ok hOwn, inline_of_ok hOwn']
        exact ⟨rfl, congrArg ((name, firstSeen own) :: ·) hMemo₁⟩

theorem symbol {name : String} (h : ∀ r, (expand r).MatchedBy (expand' r.flattened)) :
    (expandSymbol g o expand name).MatchedBy (expandSymbol g.flattened o expand' name) := by
  intro e e' hMemo hOver
  cases hResolves : g.resolves name with
  | false =>
    have hResolves' := (g.resolves_flattened name).trans hResolves
    rw [expandSymbol_of_dangling e hResolves, expandSymbol_of_dangling e' hResolves']
    exact ⟨rfl, hMemo⟩
  | true =>
    have hResolves' := (g.resolves_flattened name).trans hResolves
    cases hHidden : o.isHidden name with
    | false =>
      rw [expandSymbol_of_visible e hResolves hHidden, expandSymbol_of_visible e' hResolves' hHidden]
      exact ⟨rfl, hMemo⟩
    | true =>
      cases hKnown : e.memo.lookup name with
      | some own =>
        have hKnown' : e'.memo.lookup name = some own := hMemo ▸ hKnown
        rw [expandSymbol_of_known e hResolves hHidden hKnown,
          expandSymbol_of_known e' hResolves' hHidden hKnown', Expander.memo_ite_report,
          Expander.memo_ite_report]
        exact ⟨rfl, hMemo⟩
      | none =>
        have hNew' : e'.memo.lookup name = none := hMemo ▸ hKnown
        have hGet : g.flattened.rules.get? name = (g.rules.get? name).map Rule.flattened :=
          g.rules.get?_map Rule.flattened name
        cases hBody : g.rules.get? name with
        | none =>
          rw [hBody] at hGet
          rw [expandSymbol_of_token e hResolves hHidden hKnown hBody,
            expandSymbol_of_token e' hResolves' hHidden hNew' hGet]
          exact ⟨rfl, hMemo⟩
        | some body =>
          rw [hBody] at hGet
          rw [expandSymbol_of_body e hResolves hHidden hKnown hBody] at hOver ⊢
          rw [expandSymbol_of_body e' hResolves' hHidden hNew' hGet]
          exact (h body).inline e e' hMemo hOver

section Levels

variable {room room' : Nat} {r : Rule}

theorem succ_left (h : (expandNode g o (expandWithin g o room) r).MatchedBy y) :
    (expandWithin g o (room + 1) r).MatchedBy y :=
  fun e e' hMemo hOver => h e.enter e' hMemo hOver

theorem succ_right (h : x.MatchedBy (expandNode g o (expandWithin g o room) r)) :
    x.MatchedBy (expandWithin g o (room + 1) r) :=
  fun e e' hMemo hOver => h e e'.enter hMemo hOver

end Levels

end MatchedBy

end Expansion

/-- Whether a node that may open `room` levels is matched by its flattened form with `room'` levels, and by
the row that stands for that form in a sequence. -/
structure FlattensTo (g : Grammar) (o : Options) (room room' : Nat) (r : Rule) : Prop where
  node : (expandWithin g o room r).MatchedBy (expandWithin g.flattened o room' r.flattened)
  row : (expandWithin g o room r).MatchedBy
    (Expansion.concat (expandWithin g.flattened o room') r.flattened.spliced)

namespace FlattensTo

variable {room room' : Nat} {r : Rule}

theorem of_spliced (hAlone : r.flattened.spliced = [r.flattened])
    (h : (expandWithin g o room r).MatchedBy (expandWithin g.flattened o room' r.flattened)) :
    FlattensTo g o room room' r := by
  refine ⟨h, ?_⟩
  rw [hAlone, Expansion.concat_singleton]
  exact h

theorem concat {members : List Rule} (h : ∀ r ∈ members, FlattensTo g o room room' r) :
    (Expansion.concat (expandWithin g o room) members).MatchedBy
      (Expansion.concat (expandWithin g.flattened o room') (Rule.flattenedRow members)) := by
  induction members with
  | nil => exact .of_state_eq (fun _ => rfl) fun _ => rfl
  | cons r rest ih =>
    obtain ⟨hHead, hRest⟩ := List.forall_mem_cons.mp h
    exact .concat_cons hHead.row (ih hRest)

end FlattensTo

theorem flattensTo_of_le {room room' : Nat} (hLe : room ≤ room') (r : Rule) :
    FlattensTo g o room room' r := by
  induction room generalizing room' r with
  | zero =>
    have hOver : ∀ y : Expansion, (expandWithin g o 0 r).MatchedBy y :=
      fun y e e' _ h => absurd ⟨maxDepth, r.tag, rfl⟩ h
    exact ⟨hOver _, hOver _⟩
  | succ room ih =>
    cases room' with
    | zero => omega
    | succ room' =>
      cases r with
      | sequence members | choice members =>
        -- as a row the members stand one level higher than as a node
        exact ⟨.succ_left (.succ_right (FlattensTo.concat fun r _ => ih (by omega) r)),
          .succ_left (FlattensTo.concat fun r _ => ih (by omega) r)⟩
      | zeroOrMore content | oneOrMore content | ranked _ content | rankedLeft _ content =>
        have hContent : FlattensTo g o room (room' + 1) content := ih (by omega) content
        exact ⟨.succ_left hContent.node, .succ_left hContent.row⟩
      | «alias» content _ _ | field _ content =>
        have hContent : FlattensTo g o room room' content := ih (by omega) content
        exact .of_spliced rfl (.succ_left (.succ_right hContent.node.first))
      | blank | literal _ | pattern _ _ =>
        exact .of_spliced rfl (.succ_left (.succ_right (.of_state_eq (fun _ => rfl) fun _ => rfl)))
      | symbol name =>
        have hBodies : ∀ r, (expandWithin g o room r).MatchedBy
            (expandWithin g.flattened o room' r.flattened) := fun r => (ih (by omega) r).node
        exact .of_spliced rfl (.succ_left (.succ_right (.symbol hBodies)))

/-- Flattening leaves no precedence, no repetition, no choice and no sequence in a sequence, and whatever an
expansion gives, shapes with their order and repetitions or an unknown rule, the expansion of the flattened
node in the flattened grammar gives too. -/
theorem expandFresh_flattened_of_expandFresh (g : Grammar) (o : Options) (r : Rule) :
    (r.flattened.isFlat = true ∧ ∀ p ∈ g.flattened.rules.entries, p.2.isFlat = true) ∧
    (∀ shapes, (expandFresh g o r).1 = .ok shapes →
      (expandFresh g.flattened o r.flattened).1 = .ok shapes) ∧
    (∀ name, (expandFresh g o r).1 = .error (.unknownRule name) →
      (expandFresh g.flattened o r.flattened).1 = .error (.unknownRule name)) := by
  have hMatched : ¬ Overruns (expandFresh g o r).1 →
      (expandFresh g.flattened o r.flattened).1 = (expandFresh g o r).1 :=
    fun hOver => ((flattensTo_of_le (Nat.le_refl maxDepth) r).node {} {} rfl hOver).1
  refine ⟨⟨r.isFlat_flattened, List.forall_mem_map.mpr fun p _ => p.2.isFlat_flattened⟩, ?_, ?_⟩
  · intro shapes h
    rw [hMatched (h ▸ not_overruns_ok shapes), h]
  · intro name h
    rw [hMatched (h ▸ not_overruns_unknownRule name), h]

def grouped : Grammar :=
  (Grammar.withRule {} "_a" (.rankedLeft (some (.level 2)) (.choice [.literal "a",
    .sequence [.symbol "_b", .zeroOrMore (.sequence [.literal "b", .literal "a"])]]))).withRule "_b"
    (.oneOrMore (.field "f" (.choice [.symbol "_a", .sequence [.literal "c", .literal "d"]])))

theorem grouped_flattened :
    grouped.flattened.rules.entries = [
      ("_a", .sequence [.literal "a", .symbol "_b", .literal "b", .literal "a"]),
      ("_b", .field "f" (.sequence [.symbol "_a", .literal "c", .literal "d"]))] ∧
    (expandFresh grouped.flattened {} (.sequence [.symbol "_a", .literal "a", .symbol "_b"])).1 =
      .ok [.literal "a", .literal "c", .literal "b", .literal "a", .literal "c"] ∧
    (expandFresh grouped.flattened {} (.sequence [.symbol "_b", .symbol "gone"])).1 =
      .error (.unknownRule "gone") :=
  ⟨rfl, (expandFresh_flattened_of_expandFresh grouped {} (.choice [.ranked none (.symbol "_a"),
      .choice [.oneOrMore (.literal "a"), .zeroOrMore (.symbol "_b")]])).2.1 _ rfl,
    (expandFresh_flattened_of_expandFresh grouped {} (.choice [.symbol "_b", .symbol "gone"])).2.2 _ rfl⟩

end GrammarShapes
