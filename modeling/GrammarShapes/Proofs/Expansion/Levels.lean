import GrammarShapes.Proofs.Expansion.Run

set_option autoImplicit false

/-! # Levels and records

An expansion that succeeds has the same outcome with more levels, and its shapes and what it remembers
depend on nothing but what was remembered before: neither on the levels that are open nor on the records.
-/

namespace GrammarShapes

variable {g : Grammar} {o : Options}

section Extension

variable {expand expand' : Rule → Expansion}
  (hSame : ∀ r e shapes e', expand r e = (.ok shapes, e') → expand' r e = (.ok shapes, e'))

include hSame

theorem concat_of_ok {rs : List Rule} {e e' : Expander} {shapes : List Shape}
    (h : Expansion.concat expand rs e = (.ok shapes, e')) :
    Expansion.concat expand' rs e = (.ok shapes, e') := by
  induction rs generalizing e shapes with
  | nil => exact h
  | cons r rest ih =>
    obtain ⟨own, e₁, more, hOwn, hMore, rfl⟩ := Expansion.concat_cons_eq_ok h
    exact Expansion.concat_cons_of_ok (hSame r e own e₁ hOwn) (ih hMore)

theorem SymbolStep.extend {name : String} {e e' : Expander} {shapes : List Shape}
    (h : SymbolStep g o expand name e shapes e') : SymbolStep g o expand' name e shapes e' := by
  cases h with
  | visible hResolves hVisible => exact .visible hResolves hVisible
  | known hResolves hHidden hKnown => exact .known hResolves hHidden hKnown
  | token hResolves hHidden hNew hToken => exact .token hResolves hHidden hNew hToken
  | inlined hResolves hHidden hNew hBody hOwn =>
    exact .inlined hResolves hHidden hNew hBody (hSame _ _ _ _ hOwn)

theorem expandNode_of_ok {r : Rule} {e e' : Expander} {shapes : List Shape}
    (h : expandNode g o expand r e = (.ok shapes, e')) :
    expandNode g o expand' r e = (.ok shapes, e') := by
  cases r using Rule.byKind with
  | transparent r hTransparent =>
    rw [expandNode_of_isTransparent hTransparent] at h ⊢
    exact concat_of_ok hSame h
  | single r hSingle =>
    rw [expandNode_of_isSingleValued hSingle] at h ⊢
    obtain ⟨all, hAll, rfl⟩ := Expansion.first_eq_ok h
    exact Expansion.first_of_ok (concat_of_ok hSame hAll)
  | literal | pattern => exact h
  | symbol name =>
    have hStep := SymbolStep.extend hSame (expandSymbol_eq_ok_iff.mp h)
    exact expandSymbol_eq_ok_iff.mpr hStep

end Extension

theorem expandWithin_of_le {room room' : Nat} {r : Rule} {e e' : Expander} {shapes : List Shape}
    (hLe : room ≤ room') (h : expandWithin g o room r e = (.ok shapes, e')) :
    expandWithin g o room' r e = (.ok shapes, e') := by
  induction room generalizing room' r e e' shapes with
  | zero => cases h
  | succ room ih =>
    cases room' with
    | zero => omega
    | succ room' =>
      obtain ⟨e₁, hNode, rfl⟩ := expandWithin_succ_eq_ok h
      apply expandWithin_succ_of_ok
      exact expandNode_of_ok (fun _ _ _ _ hOwn => ih (by omega) hOwn) hNode

theorem expandWithin_unique {room room' : Nat} {r : Rule} {e e₁ e₂ : Expander}
    {shapes shapes' : List Shape} (h : expandWithin g o room r e = (.ok shapes, e₁))
    (h' : expandWithin g o room' r e = (.ok shapes', e₂)) : shapes = shapes' ∧ e₁ = e₂ := by
  have hMax := expandWithin_of_le (Nat.le_max_left room room') h
  rw [expandWithin_of_le (Nat.le_max_right room room') h'] at hMax
  cases hMax
  exact ⟨rfl, rfl⟩

theorem concat_expandWithin_of_le {room room' : Nat} {rs : List Rule} {e e' : Expander}
    {shapes : List Shape} (hLe : room ≤ room')
    (h : Expansion.concat (expandWithin g o room) rs e = (.ok shapes, e')) :
    Expansion.concat (expandWithin g o room') rs e = (.ok shapes, e') :=
  concat_of_ok (fun _ _ _ _ hOwn => expandWithin_of_le hLe hOwn) h

/-- Whether the expansion succeeds from every state with `m` remembered, with these shapes and with `m'`
remembered afterwards. -/
def Expansion.Takes (x : Expansion) (m : Memo) (shapes : List Shape) (m' : Memo) : Prop :=
  ∀ e, e.memo = m → ∃ e', x e = (.ok shapes, e') ∧ e'.memo = m'

namespace Expansion.Takes

variable {expand : Rule → Expansion} {x : Expansion} {r : Rule} {name : String} {own more : List Shape}
  {m m₁ m' : Memo}

theorem pure (m : Memo) (own : List Shape) : Expansion.Takes (fun e => (.ok own, e)) m own m :=
  fun e hMemo => ⟨e, rfl, hMemo⟩

theorem cons {rest : List Rule} (hOwn : (expand r).Takes m own m₁)
    (hMore : (Expansion.concat expand rest).Takes m₁ more m') :
    (Expansion.concat expand (r :: rest)).Takes m (own ++ more) m' := by
  intro e hMemo
  obtain ⟨e₁, hFirst, hMemo₁⟩ := hOwn e hMemo
  obtain ⟨e', hRest, hMemo'⟩ := hMore e₁ hMemo₁
  exact ⟨e', Expansion.concat_cons_of_ok hFirst hRest, hMemo'⟩

theorem first (h : x.Takes m own m') : x.first.Takes m (own.take 1) m' := by
  intro e hMemo
  obtain ⟨e', hOwn, hMemo'⟩ := h e hMemo
  exact ⟨e', Expansion.first_of_ok hOwn, hMemo'⟩

theorem inline {body : Rule} (h : (expand body).Takes ((name, []) :: m) own m₁) :
    (Expansion.inline expand name body).Takes m (firstSeen own) ((name, firstSeen own) :: m₁) := by
  intro e hMemo
  obtain ⟨e', hOwn, hMemo'⟩ := h ((e.remember name []).report (.ruleInlined name))
    (congrArg ((name, []) :: ·) hMemo)
  exact ⟨e'.remember name (firstSeen own), Expansion.inline_of_ok hOwn,
    congrArg ((name, firstSeen own) :: ·) hMemo'⟩

theorem visible (hResolves : g.resolves name = true) (hVisible : o.isHidden name = false) :
    (expandSymbol g o expand name).Takes m [.symbol name] m :=
  fun e hMemo => ⟨e, expandSymbol_of_visible e hResolves hVisible, hMemo⟩

theorem known (hResolves : g.resolves name = true) (hHidden : o.isHidden name = true)
    (hKnown : m.lookup name = some own) : (expandSymbol g o expand name).Takes m own m := by
  rintro e rfl
  exact ⟨_, expandSymbol_of_known e hResolves hHidden hKnown, e.memo_ite_report _ _⟩

theorem token (hResolves : g.resolves name = true) (hHidden : o.isHidden name = true)
    (hNew : m.lookup name = none) (hToken : g.rules.get? name = none) :
    (expandSymbol g o expand name).Takes m [] m := by
  rintro e rfl
  exact ⟨e, expandSymbol_of_token e hResolves hHidden hNew hToken, rfl⟩

theorem body {body : Rule} (hResolves : g.resolves name = true) (hHidden : o.isHidden name = true)
    (hNew : m.lookup name = none) (hBody : g.rules.get? name = some body)
    (h : (expand body).Takes ((name, []) :: m) own m₁) :
    (expandSymbol g o expand name).Takes m (firstSeen own) ((name, firstSeen own) :: m₁) := by
  intro e hMemo
  obtain ⟨e', hInline, hMemo'⟩ := h.inline e hMemo
  subst hMemo
  exact ⟨e', (expandSymbol_of_body e hResolves hHidden hNew hBody).trans hInline, hMemo'⟩

theorem succ {room : Nat} (h : (expandNode g o (expandWithin g o room) r).Takes m own m') :
    (expandWithin g o (room + 1) r).Takes m own m' := by
  intro e hMemo
  obtain ⟨e', hNode, hMemo'⟩ := h e.enter hMemo
  exact ⟨e'.leave, expandWithin_succ_of_ok hNode, hMemo'⟩

section Successful

variable (hExpand : ∀ r e shapes e', expand r e = (.ok shapes, e') →
  (expand r).Takes e.memo shapes e'.memo)

include hExpand

theorem of_concat {rs : List Rule} {e e' : Expander} {shapes : List Shape}
    (h : Expansion.concat expand rs e = (.ok shapes, e')) :
    (Expansion.concat expand rs).Takes e.memo shapes e'.memo := by
  induction rs generalizing e shapes with
  | nil =>
    cases h
    exact .pure _ _
  | cons r rest ih =>
    obtain ⟨own, e₁, more, hOwn, hMore, rfl⟩ := Expansion.concat_cons_eq_ok h
    exact .cons (hExpand r e own e₁ hOwn) (ih hMore)

theorem of_symbolStep {e e' : Expander} {shapes : List Shape}
    (h : SymbolStep g o expand name e shapes e') :
    (expandSymbol g o expand name).Takes e.memo shapes e'.memo := by
  cases h with
  | visible hResolves hVisible => exact .visible hResolves hVisible
  | known hResolves hHidden hKnown =>
    rw [Expander.memo_ite_report]
    exact .known hResolves hHidden hKnown
  | token hResolves hHidden hNew hToken => exact .token hResolves hHidden hNew hToken
  | inlined hResolves hHidden hNew hBody hOwn =>
    exact .body hResolves hHidden hNew hBody (hExpand _ _ _ _ hOwn)

theorem of_expandNode {e e' : Expander} {shapes : List Shape}
    (h : expandNode g o expand r e = (.ok shapes, e')) :
    (expandNode g o expand r).Takes e.memo shapes e'.memo := by
  cases r using Rule.byKind with
  | transparent r hTransparent =>
    rw [expandNode_of_isTransparent hTransparent] at h ⊢
    exact of_concat hExpand h
  | single r hSingle =>
    rw [expandNode_of_isSingleValued hSingle] at h ⊢
    obtain ⟨all, hAll, rfl⟩ := Expansion.first_eq_ok h
    exact (of_concat hExpand hAll).first
  | literal | pattern =>
    cases h
    exact .pure _ _
  | symbol name => exact of_symbolStep hExpand (expandSymbol_eq_ok_iff.mp h)

end Successful

theorem of_expandWithin {room : Nat} {e e' : Expander} {shapes : List Shape}
    (h : expandWithin g o room r e = (.ok shapes, e')) :
    (expandWithin g o room r).Takes e.memo shapes e'.memo := by
  induction room generalizing r e e' shapes with
  | zero => cases h
  | succ room ih =>
    obtain ⟨e₁, hNode, rfl⟩ := expandWithin_succ_eq_ok h
    have hTakes := of_expandNode (fun _ _ _ _ hOwn => ih hOwn) hNode
    exact hTakes.succ

end Expansion.Takes

end GrammarShapes
