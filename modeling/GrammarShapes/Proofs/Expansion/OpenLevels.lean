import GrammarShapes.Proofs.Expansion.Records

set_option autoImplicit false

/-! # Open levels

The number of open levels is the same after an expansion as before it, however the expansion ends. It is
therefore always what the room that is left takes it to be, and `expand` goes on with itself one level below:
`expand_eq_of_depth_le` gives the recursion without any room.
-/

namespace GrammarShapes

variable {g : Grammar} {o : Options} {e e' : Expander}

/-- Whether as many levels are open as before, and never more than `n` were opened on top of them. -/
structure Expander.Restored (n : Nat) (e e' : Expander) : Prop where
  depth : e'.depth = e.depth
  deepest : e'.deepest ≤ max e.deepest (e.depth + n)

namespace Expander.Restored

variable {n : Nat}

theorem refl (e : Expander) : e.Restored n e :=
  ⟨rfl, Nat.le_max_left _ _⟩

theorem trans {e₁ : Expander} (h : e.Restored n e₁) (h' : e₁.Restored n e') : e.Restored n e' where
  depth := h'.depth.trans h.depth
  deepest := by
    have hFirst := h.deepest
    have hSecond := h'.deepest
    rw [h.depth] at hSecond
    omega

theorem leave (h : e.enter.Restored n e') : e.Restored (n + 1) e'.leave where
  depth := by
    have hDepth : e'.depth = e.depth + 1 := h.depth
    change e'.depth - 1 = e.depth
    omega
  deepest := by
    have hDeepest : e'.deepest ≤ max (max e.deepest (e.depth + 1)) (e.depth + 1 + n) := h.deepest
    change e'.deepest ≤ _
    omega

end Expander.Restored

def Expansion.Restores (n : Nat) (x : Expansion) : Prop :=
  ∀ e : Expander, e.Restored n (x e).2

namespace Expansion.Restores

variable {n : Nat} {expand : Rule → Expansion} {x : Expansion}

theorem first (h : x.Restores n) : x.first.Restores n := by
  intro e
  rw [first_eq_map]
  exact h e

theorem concat {rs : List Rule} (h : ∀ r, (expand r).Restores n) : (concat expand rs).Restores n := by
  induction rs with
  | nil => exact fun e => .refl e
  | cons r rest ih =>
    intro e
    have hHead := h r e
    cases hOwn : expand r e with
    | mk result e₁ =>
      rw [hOwn] at hHead
      cases result with
      | error err => rwa [concat_cons_of_error hOwn]
      | ok own =>
        rw [concat_cons_eq_map hOwn]
        exact hHead.trans (ih e₁)

theorem inline {name : String} {body : Rule} (h : (expand body).Restores n) :
    (inline expand name body).Restores n := by
  intro e
  have hBody := h ((e.remember name []).report (.ruleInlined name))
  cases hOwn : expand body ((e.remember name []).report (.ruleInlined name)) with
  | mk result e₁ =>
    rw [hOwn] at hBody
    cases result with
    | error err =>
      rw [inline_of_error hOwn]
      exact ⟨hBody.depth, hBody.deepest⟩
    | ok own =>
      rw [inline_of_ok hOwn]
      exact ⟨hBody.depth, hBody.deepest⟩

theorem node (h : ∀ r, (expand r).Restores n) (r : Rule) : (expandNode g o expand r).Restores n := by
  cases r using Rule.byKind with
  | transparent r hTransparent =>
    rw [expandNode_of_isTransparent hTransparent]
    exact concat h
  | single r hSingle =>
    rw [expandNode_of_isSingleValued hSingle]
    exact (concat h).first
  | literal | pattern => exact fun e => .refl e
  | symbol name =>
    intro e
    change e.Restored n (expandSymbol g o expand name e).2
    rcases Expansion.Keeps.symbol_cases g o expand name e with hEq | hEq | ⟨body, -, -, hEq⟩
    · rw [hEq]
      exact .refl e
    · rw [hEq]
      exact ⟨rfl, Nat.le_max_left _ _⟩
    · rw [hEq]
      exact (h body).inline e

end Expansion.Restores

theorem restores_expandWithin (room : Nat) (r : Rule) : (expandWithin g o room r).Restores room := by
  induction room generalizing r with
  | zero => exact fun e => .refl e
  | succ room ih =>
    have hNode : (expandNode g o (expandWithin g o room) r).Restores room := .node ih r
    exact fun e => (hNode e.enter).leave

section SameDepth

variable {d : Nat} {expand expand' : Rule → Expansion}
  (hSame : ∀ r e, e.depth = d → expand r e = expand' r e)
  (hDepth : ∀ r e, (expand r e).2.depth = e.depth)

include hSame hDepth

theorem concat_congr_of_depth {rs : List Rule} (he : e.depth = d) :
    Expansion.concat expand rs e = Expansion.concat expand' rs e := by
  induction rs generalizing e with
  | nil => rfl
  | cons r rest ih =>
    have hRest := ih ((hDepth r e).trans he)
    simp only [Expansion.concat, ← hSame r e he]
    split
    · rfl
    · rename_i hOwn
      rw [hOwn] at hRest
      rw [hRest]

theorem expandNode_congr_of_depth (r : Rule) (he : e.depth = d) :
    expandNode g o expand r e = expandNode g o expand' r e := by
  have hRow : Expansion.concat expand r.children e = Expansion.concat expand' r.children e :=
    concat_congr_of_depth hSame hDepth he
  cases r using Rule.byKind with
  | transparent r hTransparent =>
    rw [expandNode_of_isTransparent hTransparent, expandNode_of_isTransparent hTransparent, hRow]
  | single r hSingle =>
    rw [expandNode_of_isSingleValued hSingle, expandNode_of_isSingleValued hSingle,
      Expansion.first_eq_map, Expansion.first_eq_map, hRow]
  | literal | pattern => rfl
  | symbol name =>
    have hInline : ∀ body, Expansion.inline expand name body e = Expansion.inline expand' name body e := by
      intro body
      have hOpen : ((e.remember name []).report (.ruleInlined name)).depth = d := he
      rw [Expansion.inline, Expansion.inline, hSame body _ hOpen]
    simp only [expandNode, expandSymbol, hInline]

end SameDepth

/-- The room that is left is always what the number of open levels leaves: expansion fails where all levels
are open, and else goes on with itself one level below. -/
theorem expand_eq_of_depth_le (r : Rule) (he : e.depth ≤ maxDepth) :
    expand g o r e =
      if e.depth = maxDepth then (.error (.nestedTooDeep maxDepth r.tag), e)
      else ((expandNode g o (expand g o) r e.enter).1, (expandNode g o (expand g o) r e.enter).2.leave) := by
  split
  · rename_i hFull
    rw [expand, hFull, Nat.sub_self, expandWithin]
  · rename_i hRoom
    obtain ⟨room, hSucc⟩ : ∃ room, maxDepth - e.depth = room + 1 := ⟨maxDepth - e.depth - 1, by omega⟩
    -- below the node the room is what `expand` finds, because each sub-rule starts from the same depth
    have hSame : ∀ r e₁, e₁.depth = e.depth + 1 → expandWithin g o room r e₁ = expand g o r e₁ := by
      intro r e₁ he₁
      rw [expand, he₁, show maxDepth - (e.depth + 1) = room by omega]
    have hNode := expandNode_congr_of_depth (g := g) (o := o) hSame
      (fun r e => (restores_expandWithin room r e).depth) r (e := e.enter) rfl
    rw [expand, hSucc, expandWithin, hNode]

end GrammarShapes
