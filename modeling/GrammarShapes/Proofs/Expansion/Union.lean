import GrammarShapes.Proofs.Expansion.Untangled
import Mathlib.Data.Set.Finite.Basic

set_option autoImplicit false

/-! # Unions of members

The shapes of a sequence or a choice should be those of its members, whichever comes first. This holds where
every alias and field on the way is settled: no two rules below it depend on which of them came first. Else
a member can lose shapes. An alias or a field drops all but the first of the shapes that were collected
below it, and what a rule lacks because it was completed inside another may be among those.

Of a grammar whose rules leave three levels free, all sequences and choices are unions if and only if its
rules settle each other.
-/

namespace GrammarShapes

section Statements

variable (g : Grammar) (o : Options)

/-- Whether a node is a sequence or a choice of these members. -/
def Combines (r : Rule) (members : List Rule) : Prop :=
  r = .sequence members ∨ r = .choice members

/-- Whether a node has exactly the shapes of these members, if all of them can be expanded. -/
def Unites (r : Rule) (members : List Rule) : Prop :=
  ∀ shapes, (expandFresh g o r).1 = .ok shapes → (∀ m ∈ members, ∃ own, (expandFresh g o m).1 = .ok own) →
    ∀ s, s ∈ shapes ↔ ∃ m ∈ members, ∃ own, (expandFresh g o m).1 = .ok own ∧ s ∈ own

def SettlesSingles (r : Rule) : Prop :=
  ∀ t, Meets g o r t → t.isSingleValued = true → Settled g o t

def LeavesThreeLevels : Prop :=
  ∀ name body, body ∈ opened g o (.symbol name) →
    ∃ shapes e', expandWithin g o (maxDepth - 3) (.symbol name) {} = (.ok shapes, e')

end Statements

variable {g : Grammar} {o : Options}

theorem SettlesSingles.fixesSingles {r : Rule} (h : SettlesSingles g o r) (hResolved : Resolved g o r) :
    FixesSingles g o (firmShapes g o) r := by
  intro t hMeets hSingle
  rw [isSome_firmShapes_iff]
  exact ⟨hResolved.of_meets hMeets, h t hMeets hSingle⟩

theorem unites_of_settlesSingles {r : Rule} (hTransparent : r.isTransparent = true)
    (h : ∀ m ∈ r.children, SettlesSingles g o m) : Unites g o r r.children := by
  intro shapes hShapes hMembers s
  obtain ⟨m', hRun⟩ := Run.of_expandFresh hShapes
  have hRow := hRun.of_isTransparent hTransparent
  have hSingles : ∀ m ∈ r.children, FixesSingles g o (firmShapes g o) m := fun m hm =>
    (h m hm).fixesSingles (hRow.resolved hm)
  have hGives : ∀ m ∈ r.children, ∀ own, (expandFresh g o m).1 = .ok own →
      (s ∈ own ↔ Gives g o (firmShapes g o) m s) := by
    intro m hm own hOwn
    obtain ⟨_, hMember⟩ := Run.of_expandFresh hOwn
    have hSingle := List.forall_mem_singleton.mpr (hSingles m hm)
    rw [hMember.mem_iff_gives steady_firmShapes hSingle s]
    simp
  rw [hRow.mem_iff_gives steady_firmShapes hSingles s]
  constructor
  · rintro ⟨m, hm, hGive⟩
    obtain ⟨own, hOwn⟩ := hMembers m hm
    exact ⟨m, hm, own, hOwn, (hGives m hm own hOwn).mpr hGive⟩
  · rintro ⟨m, hm, own, hOwn, hs⟩
    exact ⟨m, hm, (hGives m hm own hOwn).mp hs⟩

theorem exists_literal_notMem (shapes : List Shape) : ∃ text, Shape.literal text ∉ shapes := by
  have hInjective : Function.Injective Shape.literal := fun _ _ h => Shape.literal.inj h
  obtain ⟨_, ⟨text, rfl⟩, hText⟩ :=
    (Set.infinite_range_of_injective hInjective).exists_notMem_finset shapes.toFinset
  exact ⟨text, fun hMem => hText (List.mem_toFinset.mpr hMem)⟩

theorem Expansion.Takes.expandFresh_eq {room : Nat} {r : Rule} {own : List Shape} {m' : Memo}
    (h : (expandWithin g o room r).Takes [] own m') (hLe : room ≤ maxDepth) :
    (expandFresh g o r).1 = .ok own := by
  obtain ⟨e', hOwn, -⟩ := h {} rfl
  exact congrArg Prod.fst (expandWithin_of_le hLe hOwn)

/-- What a rule leaves in the memo stays there when a field drops all of its shapes. -/
theorem takes_dropped {room : Nat} {name : String} {shapes : List Shape} {m' : Memo} (text : String)
    (h : (expandWithin g o (room + 1) (.symbol name)).Takes [] shapes m') :
    (expandWithin g o (room + 3) (.field "" (.sequence [.literal text, .symbol name]))).Takes []
      [.literal text] m' := by
  have hLiteral : (expandWithin g o (room + 1) (.literal text)).Takes [] [.literal text] [] :=
    .succ (.pure [] [.literal text])
  have hRow : (Expansion.concat (expandWithin g o (room + 1)) [.literal text, .symbol name]).Takes []
      ([.literal text] ++ (shapes ++ [])) m' := .cons hLiteral (.cons h (.pure m' []))
  have hSequence : (expandWithin g o (room + 2) (.sequence [.literal text, .symbol name])).Takes []
      ([.literal text] ++ (shapes ++ [])) m' := .succ hRow
  exact .succ hSequence.first

theorem Unites.mem_pair_iff {r first second : Rule} {shapes own list : List Shape}
    (h : Unites g o r [first, second]) (hShapes : (expandFresh g o r).1 = .ok shapes)
    (hFirst : (expandFresh g o first).1 = .ok own) (hSecond : (expandFresh g o second).1 = .ok list)
    (s : Shape) : s ∈ shapes ↔ s ∈ own ∨ s ∈ list := by
  have hMembers : ∀ m ∈ [first, second], ∃ own, (expandFresh g o m).1 = .ok own :=
    List.forall_mem_cons.mpr ⟨⟨own, hFirst⟩, List.forall_mem_singleton.mpr ⟨list, hSecond⟩⟩
  rw [h shapes hShapes hMembers s]
  simp [hFirst, hSecond]

/-- If a union holds behind a node that drops what it collects, then the second member has the shapes there
that it has alone. -/
theorem mem_iff_of_unites {first second : Rule} {text : String} {own list : List Shape} {m₁ m' : Memo}
    (h : Unites g o (.sequence [first, second]) [first, second])
    (hFirst : (expandWithin g o (maxDepth - 1) first).Takes [] [.literal text] m₁)
    (hSecond : (expandWithin g o (maxDepth - 1) second).Takes m₁ own m')
    (hAlone : (expandFresh g o second).1 = .ok list) (hText : Shape.literal text ∉ own ++ list)
    (s : Shape) : s ∈ own ↔ s ∈ list := by
  have hRow : (expandWithin g o maxDepth (.sequence [first, second])).Takes []
      ([.literal text] ++ (own ++ [])) m' := .succ (.cons hFirst (.cons hSecond (.pure m' [])))
  have hUnion := h.mem_pair_iff (hRow.expandFresh_eq (Nat.le_refl _))
    (hFirst.expandFresh_eq (Nat.sub_le _ _)) hAlone s
  rw [List.append_nil, List.mem_append, List.mem_singleton] at hUnion
  constructor
  · intro hs
    rcases hUnion.mp (Or.inr hs) with rfl | hList
    · exact absurd (List.mem_append_left _ hs) hText
    · exact hList
  · intro hs
    rcases hUnion.mpr (Or.inr hs) with rfl | hOwn
    · exact absurd (List.mem_append_right _ hs) hText
    · exact hOwn

theorem head?_eq_of_mem_take_one {α : Type} {xs ys : List α} (h : ∀ x, x ∈ xs.take 1 ↔ x ∈ ys.take 1) :
    xs.head? = ys.head? := by
  apply Option.ext
  intro x
  have hx := h x
  rwa [List.take_one, List.take_one, Option.mem_toList, Option.mem_toList] at hx

theorem settles_of_unites (hLevels : LeavesThreeLevels g o)
    (h : ∀ members, Unites g o (.sequence members) members) (name other : String) :
    Settles g o name other := by
  apply settles_of_room (maxDepth - 3)
  intro body otherBody hBody hOtherBody
  obtain ⟨shapes, e₁, hName⟩ := hLevels name body hBody
  obtain ⟨list, e₂, hOther⟩ := hLevels other otherBody hOtherBody
  refine ⟨shapes, e₁, list, e₂, hName, hOther, fun own hOwn => ?_⟩
  obtain ⟨hHidden, hGet⟩ := mem_opened_symbol_iff.mp hOtherBody
  have hAlone := Expansion.Takes.of_expandWithin hOther
  have hKnown : ∀ room, (expandWithin g o (room + 1) (.symbol other)).Takes e₁.memo own e₁.memo :=
    fun _ => .succ (.known (Grammar.resolves_of_get? hGet) hHidden hOwn)
  obtain ⟨text, hText⟩ := exists_literal_notMem (own ++ list)
  have hDropped := takes_dropped text (Expansion.Takes.of_expandWithin hName)
  constructor
  · apply head?_eq_of_mem_take_one
    have hText' : Shape.literal text ∉ own.take 1 ++ list.take 1 := by
      intro hMem
      rcases List.mem_append.mp hMem with hMem | hMem
      · exact hText (List.mem_append_left _ (List.mem_of_mem_take hMem))
      · exact hText (List.mem_append_right _ (List.mem_of_mem_take hMem))
    have hField : (expandWithin g o (maxDepth - 2) (.field "" (.symbol other))).Takes [] (list.take 1)
        e₂.memo := .succ hAlone.first
    have hSecond : (expandWithin g o (maxDepth - 1) (.field "" (.symbol other))).Takes e₁.memo
        (own.take 1) e₁.memo := .succ (hKnown (maxDepth - 3)).first
    exact mem_iff_of_unites (h _) hDropped hSecond (hField.expandFresh_eq (Nat.sub_le _ _)) hText'
  · exact mem_iff_of_unites (h _) hDropped (hKnown (maxDepth - 2))
      (hAlone.expandFresh_eq (Nat.sub_le _ _)) hText

theorem Combines.unites {r : Rule} {members : List Rule} (hCombines : Combines r members)
    (h : ∀ m ∈ members, SettlesSingles g o m) : Unites g o r members := by
  rcases hCombines with rfl | rfl
  · exact unites_of_settlesSingles rfl h
  · exact unites_of_settlesSingles rfl h

theorem Unites.mem_iff_of_perm {r r' : Rule} {members members' : List Rule} {shapes shapes' : List Shape}
    (h : Unites g o r members) (h' : Unites g o r' members') (hPerm : members.Perm members')
    (hMembers : ∀ m ∈ members, ∃ own, (expandFresh g o m).1 = .ok own)
    (hShapes : (expandFresh g o r).1 = .ok shapes) (hShapes' : (expandFresh g o r').1 = .ok shapes')
    (s : Shape) : s ∈ shapes ↔ s ∈ shapes' := by
  have hMembers' : ∀ m ∈ members', ∃ own, (expandFresh g o m).1 = .ok own :=
    fun m hm => hMembers m (hPerm.mem_iff.mpr hm)
  rw [h shapes hShapes hMembers s, h' shapes' hShapes' hMembers' s]
  simp only [hPerm.mem_iff]

/-- Sequences and choices whose aliases and fields are settled are unions of their members in any order.
Aliases and fields are settled if they are untangled. If every hidden rule leaves three levels free, then
all sequences and choices are unions if and only if all rules settle each other. -/
theorem unites_iff_settles :
    (∀ r members, Combines r members → (∀ m ∈ members, SettlesSingles g o m) → Unites g o r members) ∧
    (∀ r r' members members' shapes shapes', Combines r members → Combines r' members' →
      members.Perm members' → (∀ m ∈ members, SettlesSingles g o m) →
      (∀ m ∈ members, ∃ own, (expandFresh g o m).1 = .ok own) → (expandFresh g o r).1 = .ok shapes →
      (expandFresh g o r').1 = .ok shapes' → ∀ s, s ∈ shapes ↔ s ∈ shapes') ∧
    (∀ r, (∀ t, Meets g o r t → t.isSingleValued = true → Untangled g o t) → SettlesSingles g o r) ∧
    (LeavesThreeLevels g o →
      ((∀ r members, Combines r members → Unites g o r members) ↔
        ∀ name other, Settles g o name other)) := by
  refine ⟨fun r members hCombines h => hCombines.unites h, ?_, ?_, fun hLevels => ⟨?_, ?_⟩⟩
  · intro r r' members members' shapes shapes' hCombines hCombines' hPerm h hMembers hShapes hShapes'
    have h' : ∀ m ∈ members', SettlesSingles g o m := fun m hm => h m (hPerm.mem_iff.mpr hm)
    exact (hCombines.unites h).mem_iff_of_perm (hCombines'.unites h') hPerm hMembers hShapes hShapes'
  · exact fun r h t hMeets hSingle => (h t hMeets hSingle).settled
  · exact fun h => settles_of_unites hLevels fun members => h _ members (Or.inl rfl)
  · intro h r members hCombines
    exact hCombines.unites fun m _ t _ _ name other _ => h name other

def twins : Grammar :=
  (Grammar.withRule {} "_a" (.choice [.literal "x", .symbol "_b"])).withRule "_b"
    (.choice [.literal "x", .symbol "_a"])

theorem twins_opened {name : String} {body : Rule} (h : body ∈ opened twins {} (.symbol name)) :
    name = "_a" ∨ name = "_b" := by
  have hName := Directory.mem_names_of_get? (mem_opened_symbol_iff.mp h).2
  have hNames : twins.rules.names = ["_a", "_b"] := by decide
  rw [hNames] at hName
  simpa using hName

theorem twins_expandWithin {name : String} (h : name = "_a" ∨ name = "_b") :
    ∃ e', expandWithin twins {} 5 (.symbol name) {} = (.ok [.literal "x"], e') ∧
      ∀ other own, e'.memo.lookup other = some own → own = [.literal "x"] := by
  rcases h with rfl | rfl
  · refine ⟨(expandWithin twins {} 5 (.symbol "_a") {}).2, rfl, fun other own hOwn => ?_⟩
    have hMemo : (expandWithin twins {} 5 (.symbol "_a") {}).2.memo =
        [("_a", [.literal "x"]), ("_b", [.literal "x"]), ("_b", []), ("_a", [])] := rfl
    simp only [hMemo, Memo.lookup_cons] at hOwn
    split_ifs at hOwn <;> cases hOwn <;> rfl
  · refine ⟨(expandWithin twins {} 5 (.symbol "_b") {}).2, rfl, fun other own hOwn => ?_⟩
    have hMemo : (expandWithin twins {} 5 (.symbol "_b") {}).2.memo =
        [("_b", [.literal "x"]), ("_a", [.literal "x"]), ("_a", []), ("_b", [])] := rfl
    simp only [hMemo, Memo.lookup_cons] at hOwn
    split_ifs at hOwn <;> cases hOwn <;> rfl

theorem settles_twins (name other : String) : Settles twins {} name other := by
  apply settles_of_room 5
  intro body otherBody hBody hOtherBody
  obtain ⟨e₁, hName, hEntries⟩ := twins_expandWithin (twins_opened hBody)
  obtain ⟨e₂, hOther, -⟩ := twins_expandWithin (twins_opened hOtherBody)
  refine ⟨_, e₁, _, e₂, hName, hOther, fun own hOwn => ?_⟩
  rw [hEntries other own hOwn]
  exact .refl _

theorem unites_twins :
    Unites twins {} (.sequence [.field "f" (.symbol "_a"), .symbol "_b"])
      [.field "f" (.symbol "_a"), .symbol "_b"] ∧
    (∀ s, s ∈ [Shape.literal "x", .literal "y"] ↔ s ∈ [Shape.literal "y", .literal "x"]) ∧
    SettlesSingles twins {} (.field "f" (.literal "x")) ∧
    ∀ r members, Combines r members → Unites twins {} r members := by
  obtain ⟨hUnites, hPerm, hUntangled, hIff⟩ := @unites_iff_settles twins {}
  have hSettled : ∀ r, SettlesSingles twins {} r := fun _ _ _ _ name other _ => settles_twins name other
  refine ⟨hUnites _ _ (Or.inl rfl) fun m _ => hSettled m, ?_, ?_, (hIff ?_).mpr settles_twins⟩
  · apply hPerm (.sequence [.field "f" (.symbol "_a"), .literal "y"])
      (.choice [.literal "y", .field "f" (.symbol "_a")]) _ _ _ _ (Or.inl rfl) (Or.inr rfl)
      (List.Perm.swap _ _ _) (fun m _ => hSettled m) _ rfl rfl
    exact List.forall_mem_cons.mpr ⟨⟨[.literal "x"], rfl⟩, List.forall_mem_singleton.mpr ⟨_, rfl⟩⟩
  · refine hUntangled _ fun t hMeets _ name other hName => ?_
    have hRow : Rule.symbol name ∈ [Rule.field "f" (.literal "x"), .literal "x"] :=
      (hMeets.trans hName).mem_of_closed (by simp) (by simp [opened, Rule.children])
    simp at hRow
  · intro name body hBody
    obtain ⟨e', hName, -⟩ := twins_expandWithin (twins_opened hBody)
    exact ⟨_, e', expandWithin_of_le (by decide) hName⟩

def entangled : Grammar :=
  (Grammar.withRule {} "_a" (.choice [.literal "w", .literal "x", .symbol "_b"])).withRule "_b"
    (.choice [.literal "y", .symbol "_a"])

theorem not_forall_unites :
    ¬ ∀ (g : Grammar) (o : Options) (r : Rule) (members : List Rule), Combines r members →
      Unites g o r members := by
  intro h
  have hUnites := h entangled {} (.sequence [.field "f" (.symbol "_a"), .symbol "_b"]) _ (Or.inl rfl)
  have hShapes : (expandFresh entangled {} (.sequence [.field "f" (.symbol "_a"), .symbol "_b"])).1 =
      .ok [.literal "w", .literal "y"] := rfl
  have hFirst : (expandFresh entangled {} (.field "f" (.symbol "_a"))).1 = .ok [.literal "w"] := rfl
  have hSecond : (expandFresh entangled {} (.symbol "_b")).1 =
      .ok [.literal "y", .literal "w", .literal "x"] := rfl
  have hLost := (hUnites.mem_pair_iff hShapes hFirst hSecond (.literal "x")).mpr (by decide)
  exact absurd hLost (by decide)

end GrammarShapes
