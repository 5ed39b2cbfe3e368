import GrammarShapes.Proofs.Expansion.Step
import Mathlib.Logic.Relation

set_option autoImplicit false

/-! # Runs of expansion

A successful expansion is a run: from the shapes that are remembered, a row of nodes gives shapes and what
is remembered afterwards. Levels and records play no part in it. `Run.of_expandFresh` makes every expansion
that succeeds a run, so that a law of expansion is one induction on runs.

The nodes that an expansion can come to, whatever is remembered, are those that the first one `Meets`.
-/

namespace GrammarShapes

variable (g : Grammar) (o : Options)

/-- The nodes that the expansion of a node goes on to: the body of the hidden rule that it refers to, or
else its direct sub-rules. -/
def opened : Rule → List Rule
  | .symbol name => if o.isHidden name then (g.rules.get? name).toList else []
  | r => r.children

/-- Whether the expansion of the first node can come to the second. -/
def Meets : Rule → Rule → Prop :=
  Relation.ReflTransGen fun r t => t ∈ opened g o r

inductive Shows : Rule → List Shape → Prop where
  | literal (text : String) : Shows (.literal text) [.literal text]
  | pattern (regex : String) (flags : Option String) : Shows (.pattern regex flags) [.pattern]
  | visible {name : String} (hResolves : g.resolves name = true) (hVisible : o.isHidden name = false) :
      Shows (.symbol name) [.symbol name]
  | token {name : String} (hResolves : g.resolves name = true) (hHidden : o.isHidden name = true)
      (hToken : g.rules.get? name = none) : Shows (.symbol name) []

/-- The shapes of hidden rules, the latest entry for a name first. -/
abbrev Memo :=
  List (String × List Shape)

/-- `Run g o m rs shapes m'`: with `m` remembered, the row `rs` gives `shapes` and leaves `m'`. -/
inductive Run : Memo → List Rule → List Shape → Memo → Prop where
  | nil (m : Memo) : Run m [] [] m
  | shown {m m' : Memo} {r : Rule} {rest : List Rule} {own shapes : List Shape}
      (hOwn : Shows g o r own) (hRest : Run m rest shapes m') : Run m (r :: rest) (own ++ shapes) m'
  | known {m m' : Memo} {name : String} {rest : List Rule} {own shapes : List Shape}
      (hHidden : o.isHidden name = true) (hKnown : m.lookup name = some own)
      (hRest : Run m rest shapes m') : Run m (.symbol name :: rest) (own ++ shapes) m'
  | inlined {m m₁ m' : Memo} {name : String} {body : Rule} {rest : List Rule} {own shapes : List Shape}
      (hHidden : o.isHidden name = true) (hNew : m.lookup name = none)
      (hBody : g.rules.get? name = some body) (hOwn : Run ((name, []) :: m) [body] own m₁)
      (hRest : Run ((name, firstSeen own) :: m₁) rest shapes m') :
      Run m (.symbol name :: rest) (firstSeen own ++ shapes) m'
  | single {m m₁ m' : Memo} {r : Rule} {rest : List Rule} {own shapes : List Shape}
      (hSingle : r.isSingleValued = true) (hOwn : Run m r.children own m₁)
      (hRest : Run m₁ rest shapes m') : Run m (r :: rest) (own.take 1 ++ shapes) m'
  | transparent {m m₁ m' : Memo} {r : Rule} {rest : List Rule} {own shapes : List Shape}
      (hTransparent : r.isTransparent = true) (hOwn : Run m r.children own m₁)
      (hRest : Run m₁ rest shapes m') : Run m (r :: rest) (own ++ shapes) m'

namespace Memo

theorem lookup_cons (name : String) (own : List Shape) (m : Memo) (other : String) :
    ((name, own) :: m).lookup other = if other = name then some own else m.lookup other := by
  by_cases h : other = name
  · simp [h]
  · rw [List.lookup_cons, beq_eq_false_iff_ne.mpr h, if_neg h]

theorem lookup_cons_self (name : String) (own : List Shape) (m : Memo) :
    ((name, own) :: m).lookup name = some own := by
  rw [lookup_cons, if_pos rfl]

theorem lookup_cons_of_ne {name other : String} (own : List Shape) (m : Memo) (h : other ≠ name) :
    ((name, own) :: m).lookup other = m.lookup other := by
  rw [lookup_cons, if_neg h]

theorem isSome_lookup_cons {name other : String} (own : List Shape) {m : Memo}
    (h : (m.lookup other).isSome = true) : (List.lookup other ((name, own) :: m)).isSome = true := by
  rw [lookup_cons]
  split
  · rfl
  · exact h

end Memo

variable {g : Grammar} {o : Options}

theorem mem_opened_of_mem_children {r c : Rule} (h : c ∈ r.children) : c ∈ opened g o r := by
  cases r <;> first | exact h | simp [Rule.children] at h

theorem mem_opened_symbol_iff {name : String} {body : Rule} :
    body ∈ opened g o (.symbol name) ↔ o.isHidden name = true ∧ g.rules.get? name = some body := by
  by_cases hHidden : o.isHidden name = true <;> simp [opened, hHidden]

namespace Meets

theorem refl (r : Rule) : Meets g o r r :=
  Relation.ReflTransGen.refl

theorem trans {r s t : Rule} (h : Meets g o r s) (h' : Meets g o s t) : Meets g o r t :=
  Relation.ReflTransGen.trans h h'

theorem of_opened {r t : Rule} (h : t ∈ opened g o r) : Meets g o r t :=
  Relation.ReflTransGen.single h

theorem of_mem_children {r c : Rule} (h : c ∈ r.children) : Meets g o r c :=
  of_opened (mem_opened_of_mem_children h)

theorem body {name : String} {body : Rule} (hHidden : o.isHidden name = true)
    (hBody : g.rules.get? name = some body) : Meets g o (.symbol name) body :=
  of_opened (mem_opened_symbol_iff.mpr ⟨hHidden, hBody⟩)

theorem mem_of_closed {r t : Rule} {rs : List Rule} (h : Meets g o r t) (hr : r ∈ rs)
    (hClosed : ∀ s ∈ rs, ∀ u ∈ opened g o s, u ∈ rs) : t ∈ rs := by
  induction h with
  | refl => exact hr
  | tail _ hOpened ih => exact hClosed _ ih _ hOpened

end Meets

namespace Shows

theorem eq_of_visible {name : String} {own : List Shape} (h : Shows g o (.symbol name) own)
    (hVisible : o.isHidden name = false) : own = [.symbol name] := by
  cases h with
  | visible => rfl
  | token _ hHidden =>
    rw [hVisible] at hHidden
    cases hHidden

theorem eq_nil_of_hidden {name : String} {own : List Shape} (h : Shows g o (.symbol name) own)
    (hHidden : o.isHidden name = true) : own = [] := by
  cases h with
  | visible _ hVisible =>
    rw [hHidden] at hVisible
    cases hVisible
  | token => rfl

theorem not_mem_opened {name : String} {body : Rule} {own : List Shape}
    (h : Shows g o (.symbol name) own) : body ∉ opened g o (.symbol name) := by
  rw [mem_opened_symbol_iff]
  rintro ⟨hHidden, hBody⟩
  cases h with
  | visible _ hVisible =>
    rw [hHidden] at hVisible
    cases hVisible
  | token _ _ hToken =>
    rw [hBody] at hToken
    cases hToken

theorem unique {r : Rule} {own own' : List Shape} (h : Shows g o r own) (h' : Shows g o r own') :
    own = own' := by
  cases h with
  | literal | pattern =>
    cases h'
    rfl
  | visible _ hVisible => exact (h'.eq_of_visible hVisible).symm
  | token _ hHidden => exact (h'.eq_nil_of_hidden hHidden).symm

theorem isTransparent {r : Rule} {own : List Shape} (h : Shows g o r own) :
    r.isTransparent = false := by
  cases h <;> rfl

theorem isSingleValued {r : Rule} {own : List Shape} (h : Shows g o r own) :
    r.isSingleValued = false := by
  cases h <;> rfl

end Shows

namespace Run

variable {m m₁ m' : Memo}

theorem of_append_nil {rs : List Rule} {shapes : List Shape} (h : Run g o m rs (shapes ++ []) m') :
    Run g o m rs shapes m' := by
  rwa [List.append_nil] at h

theorem append {rs rs' : List Rule} {shapes shapes' : List Shape} (h : Run g o m rs shapes m₁)
    (h' : Run g o m₁ rs' shapes' m') : Run g o m (rs ++ rs') (shapes ++ shapes') m' := by
  induction h with
  | nil => exact h'
  | shown hOwn _ ih =>
    rw [List.append_assoc]
    exact .shown hOwn (ih h')
  | known hHidden hKnown _ ih =>
    rw [List.append_assoc]
    exact .known hHidden hKnown (ih h')
  | inlined hHidden hNew hBody hOwn _ _ ih =>
    rw [List.append_assoc]
    exact .inlined hHidden hNew hBody hOwn (ih h')
  | single hSingle hOwn _ _ ih =>
    rw [List.append_assoc]
    exact .single hSingle hOwn (ih h')
  | transparent hTransparent hOwn _ _ ih =>
    rw [List.append_assoc]
    exact .transparent hTransparent hOwn (ih h')

theorem uncons {r : Rule} {rest : List Rule} {shapes : List Shape}
    (h : Run g o m (r :: rest) shapes m') :
    ∃ own m₁ more, Run g o m [r] own m₁ ∧ Run g o m₁ rest more m' ∧ shapes = own ++ more := by
  cases h with
  | @shown _ _ _ _ own more hOwn hRest =>
    exact ⟨own ++ [], m, more, .shown hOwn (.nil m), hRest, by rw [List.append_nil]⟩
  | @known _ _ _ _ own more hHidden hKnown hRest =>
    exact ⟨own ++ [], m, more, .known hHidden hKnown (.nil m), hRest, by rw [List.append_nil]⟩
  | @inlined _ m₁ _ name _ _ own more hHidden hNew hBody hOwn hRest =>
    exact ⟨firstSeen own ++ [], (name, firstSeen own) :: m₁, more,
      .inlined hHidden hNew hBody hOwn (.nil _), hRest, by rw [List.append_nil]⟩
  | @single _ m₁ _ _ _ own more hSingle hOwn hRest =>
    exact ⟨own.take 1 ++ [], m₁, more, .single hSingle hOwn (.nil m₁), hRest, by rw [List.append_nil]⟩
  | @transparent _ m₁ _ _ _ own more hTransparent hOwn hRest =>
    exact ⟨own ++ [], m₁, more, .transparent hTransparent hOwn (.nil m₁), hRest,
      by rw [List.append_nil]⟩

theorem of_isTransparent {r : Rule} {own : List Shape} (h : Run g o m [r] own m')
    (hTransparent : r.isTransparent = true) : Run g o m r.children own m' := by
  cases h with
  | transparent _ hOwn hRest =>
    cases hRest
    rwa [List.append_nil]
  | shown hOwn =>
    rw [hOwn.isTransparent] at hTransparent
    cases hTransparent
  | known | inlined => cases hTransparent
  | single hSingle =>
    rw [Rule.isSingleValued_of_isTransparent hTransparent] at hSingle
    cases hSingle

theorem of_isSingleValued {r : Rule} {own : List Shape} (h : Run g o m [r] own m')
    (hSingle : r.isSingleValued = true) :
    ∃ all, Run g o m r.children all m' ∧ own = all.take 1 := by
  cases h with
  | @single _ _ _ _ _ all _ _ hOwn hRest =>
    cases hRest
    exact ⟨all, hOwn, List.append_nil _⟩
  | shown hOwn =>
    rw [hOwn.isSingleValued] at hSingle
    cases hSingle
  | known | inlined => cases hSingle
  | transparent hTransparent =>
    rw [Rule.isSingleValued_of_isTransparent hTransparent] at hSingle
    cases hSingle

theorem of_body {name : String} {body : Rule} {own : List Shape} (h : Run g o m [.symbol name] own m')
    (hHidden : o.isHidden name = true) (hBody : g.rules.get? name = some body) :
    (m.lookup name = some own ∧ m' = m) ∨
    (m.lookup name = none ∧ ∃ all m₁, Run g o ((name, []) :: m) [body] all m₁ ∧
      own = firstSeen all ∧ m' = (name, firstSeen all) :: m₁) := by
  cases h with
  | known _ hKnown hRest =>
    cases hRest
    rw [List.append_nil]
    exact Or.inl ⟨hKnown, rfl⟩
  | @inlined _ m₁ _ _ _ _ all _ _ hNew hBody' hOwn hRest =>
    cases hRest
    rw [hBody] at hBody'
    cases hBody'
    exact Or.inr ⟨hNew, all, m₁, hOwn, List.append_nil _, rfl⟩
  | shown hOwn => exact absurd (mem_opened_symbol_iff.mpr ⟨hHidden, hBody⟩) hOwn.not_mem_opened
  | single hSingle => cases hSingle
  | transparent hTransparent => cases hTransparent

theorem lookup_eq_some {rs : List Rule} {shapes own : List Shape} {name : String}
    (h : Run g o m rs shapes m') (hName : m.lookup name = some own) : m'.lookup name = some own := by
  induction h with
  | nil => exact hName
  | shown _ _ ih | known _ _ _ ih => exact ih hName
  | single _ _ _ ihOwn ihRest | transparent _ _ _ ihOwn ihRest => exact ihRest (ihOwn hName)
  | @inlined _ _ _ inner _ _ _ _ _ hNew _ _ _ ihOwn ihRest =>
    have hne : name ≠ inner := by
      rintro rfl
      rw [hNew] at hName
      cases hName
    apply ihRest
    rw [Memo.lookup_cons_of_ne _ _ hne]
    apply ihOwn
    rw [Memo.lookup_cons_of_ne _ _ hne, hName]

theorem isSome_lookup {rs : List Rule} {shapes : List Shape} {name : String}
    (h : Run g o m rs shapes m') (hName : (m.lookup name).isSome = true) :
    (m'.lookup name).isSome = true := by
  obtain ⟨own, hOwn⟩ := Option.isSome_iff_exists.mp hName
  exact Option.isSome_of_eq_some (h.lookup_eq_some hOwn)

theorem known_or_meets {rs : List Rule} {shapes : List Shape} {name : String}
    (h : Run g o m rs shapes m') (hName : (m'.lookup name).isSome = true) :
    (m.lookup name).isSome = true ∨ ∃ r ∈ rs, Meets g o r (.symbol name) := by
  induction h with
  | nil => exact Or.inl hName
  | shown _ _ ih | known _ _ _ ih =>
    exact (ih hName).imp_right fun ⟨r, hr, hMeets⟩ => ⟨r, List.mem_cons_of_mem _ hr, hMeets⟩
  | single _ _ _ ihOwn ihRest | transparent _ _ _ ihOwn ihRest =>
    rcases ihRest hName with hName | ⟨r, hr, hMeets⟩
    · rcases ihOwn hName with hName | ⟨c, hc, hMeets⟩
      · exact Or.inl hName
      · exact Or.inr ⟨_, List.mem_cons_self, (Meets.of_mem_children hc).trans hMeets⟩
    · exact Or.inr ⟨r, List.mem_cons_of_mem _ hr, hMeets⟩
  | @inlined _ _ _ inner body _ _ _ hHidden _ hBody _ _ ihOwn ihRest =>
    by_cases hInner : name = inner
    · exact Or.inr ⟨_, List.mem_cons_self, hInner ▸ Meets.refl _⟩
    rcases ihRest hName with hName | ⟨r, hr, hMeets⟩
    · rw [Memo.lookup_cons_of_ne _ _ hInner] at hName
      rcases ihOwn hName with hName | ⟨c, hc, hMeets⟩
      · rw [Memo.lookup_cons_of_ne _ _ hInner] at hName
        exact Or.inl hName
      · obtain rfl := List.mem_singleton.mp hc
        exact Or.inr ⟨_, List.mem_cons_self, (Meets.body hHidden hBody).trans hMeets⟩
    · exact Or.inr ⟨r, List.mem_cons_of_mem _ hr, hMeets⟩

section Functional

variable {expand : Rule → Expansion}
  (hExpand : ∀ r e shapes e', expand r e = (.ok shapes, e') → Run g o e.memo [r] shapes e'.memo)

include hExpand

theorem of_concat {rs : List Rule} {e e' : Expander} {shapes : List Shape}
    (h : Expansion.concat expand rs e = (.ok shapes, e')) : Run g o e.memo rs shapes e'.memo := by
  induction rs generalizing e shapes with
  | nil =>
    cases h
    exact .nil _
  | cons r rest ih =>
    obtain ⟨own, e₁, more, hOwn, hMore, rfl⟩ := Expansion.concat_cons_eq_ok h
    exact append (hExpand r e own e₁ hOwn) (ih hMore)

theorem of_symbolStep {name : String} {e e' : Expander} {shapes : List Shape}
    (h : SymbolStep g o expand name e shapes e') : Run g o e.memo [.symbol name] shapes e'.memo := by
  apply of_append_nil
  cases h with
  | visible hResolves hVisible => exact .shown (.visible hResolves hVisible) (.nil _)
  | known _ hHidden hKnown =>
    rw [Expander.memo_ite_report]
    exact .known hHidden hKnown (.nil _)
  | token hResolves hHidden _ hToken => exact .shown (.token hResolves hHidden hToken) (.nil _)
  | inlined _ hHidden hNew hBody hOwn =>
    exact .inlined hHidden hNew hBody (hExpand _ _ _ _ hOwn) (.nil _)

theorem of_expandNode {r : Rule} {e e' : Expander} {shapes : List Shape}
    (h : expandNode g o expand r e = (.ok shapes, e')) : Run g o e.memo [r] shapes e'.memo := by
  apply of_append_nil
  cases r using Rule.byKind with
  | transparent r hTransparent =>
    rw [expandNode_of_isTransparent hTransparent] at h
    exact .transparent hTransparent (of_concat hExpand h) (.nil _)
  | single r hSingle =>
    rw [expandNode_of_isSingleValued hSingle] at h
    obtain ⟨own, hOwn, rfl⟩ := Expansion.first_eq_ok h
    exact .single hSingle (of_concat hExpand hOwn) (.nil _)
  | literal text =>
    cases h
    exact .shown (.literal text) (.nil _)
  | pattern regex flags =>
    cases h
    exact .shown (.pattern regex flags) (.nil _)
  | symbol name =>
    rw [List.append_nil]
    exact of_symbolStep hExpand (expandSymbol_eq_ok_iff.mp h)

end Functional

theorem of_expandWithin {room : Nat} {r : Rule} {e e' : Expander} {shapes : List Shape}
    (h : expandWithin g o room r e = (.ok shapes, e')) : Run g o e.memo [r] shapes e'.memo := by
  induction room generalizing r e e' shapes with
  | zero => cases h
  | succ room ih =>
    obtain ⟨e₁, hNode, rfl⟩ := expandWithin_succ_eq_ok h
    change Run g o e.enter.memo [r] shapes e₁.memo
    exact of_expandNode (fun _ _ _ _ => ih) hNode

theorem of_expandFresh {r : Rule} {shapes : List Shape} (h : (expandFresh g o r).1 = .ok shapes) :
    ∃ m', Run g o [] [r] shapes m' := by
  cases hFresh : expandFresh g o r with
  | mk result e' =>
    rw [hFresh] at h
    cases h
    exact ⟨e'.memo, of_expandWithin hFresh⟩

end Run

end GrammarShapes
