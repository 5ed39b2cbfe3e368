import GrammarShapes.Schema.Expansion

set_option autoImplicit false

/-! # Steps of expansion

What one step of expansion does with a row of nodes, a node and a symbol, as equations for each outcome of
the steps below it. A node passes on what its direct sub-rules give, or only the first of it; else it is a
text, a pattern or a symbol. `SymbolStep` lists what a symbol that is expanded can come to.
-/

namespace GrammarShapes

namespace Rule

/-- Whether a node keeps only the first of the shapes of its content. -/
def isSingleValued : Rule → Bool
  | .alias _ _ _ => true
  | .field _ _ => true
  | _ => false

/-- Whether a node has the shapes of its direct sub-rules, one after the other, and no others. -/
def isTransparent : Rule → Bool
  | .alias _ _ _ => false
  | .field _ _ => false
  | .literal _ => false
  | .pattern _ _ => false
  | .symbol _ => false
  | _ => true

theorem isSingleValued_of_isTransparent {r : Rule} (h : r.isTransparent = true) :
    r.isSingleValued = false := by
  cases r <;> first | rfl | cases h

theorem byKind {motive : Rule → Prop} (transparent : ∀ r, r.isTransparent = true → motive r)
    (single : ∀ r, r.isSingleValued = true → motive r) (literal : ∀ text, motive (.literal text))
    (pattern : ∀ regex flags, motive (.pattern regex flags)) (symbol : ∀ name, motive (.symbol name))
    (r : Rule) : motive r := by
  cases r with
  | blank | sequence _ | choice _ | zeroOrMore _ | oneOrMore _ | ranked _ _ | rankedLeft _ _ =>
    exact transparent _ rfl
  | «alias» _ _ _ | field _ _ => exact single _ rfl
  | literal text => exact literal text
  | pattern regex flags => exact pattern regex flags
  | symbol name => exact symbol name

end Rule

variable {g : Grammar} {o : Options} {expand : Rule → Expansion} {e e₁ e' : Expander}
  {own more shapes : List Shape}

namespace Expansion

theorem concat_singleton (expand : Rule → Expansion) (r : Rule) : concat expand [r] = expand r := by
  funext e
  simp only [concat]
  cases expand r e with
  | mk result e' => cases result <;> simp

theorem concat_cons_of_ok {r : Rule} {rest : List Rule} (hOwn : expand r e = (.ok own, e₁))
    (hMore : concat expand rest e₁ = (.ok more, e')) :
    concat expand (r :: rest) e = (.ok (own ++ more), e') := by
  simp only [concat, hOwn, hMore]

theorem concat_cons_of_error {r : Rule} {rest : List Rule} {err : SchemaError}
    (h : expand r e = (.error err, e')) : concat expand (r :: rest) e = (.error err, e') := by
  simp only [concat, h]

theorem concat_cons_eq_map {r : Rule} {rest : List Rule} (hOwn : expand r e = (.ok own, e₁)) :
    concat expand (r :: rest) e =
      ((concat expand rest e₁).1.map (own ++ ·), (concat expand rest e₁).2) := by
  simp only [concat, hOwn]
  cases concat expand rest e₁ with
  | mk result e' => cases result <;> rfl

theorem concat_cons_eq_ok {r : Rule} {rest : List Rule}
    (h : concat expand (r :: rest) e = (.ok shapes, e')) :
    ∃ own e₁ more, expand r e = (.ok own, e₁) ∧ concat expand rest e₁ = (.ok more, e') ∧
      shapes = own ++ more := by
  rw [concat] at h
  split at h
  · cases h
  · rename_i own e₁ hOwn
    split at h
    · cases h
    · rename_i more e₂ hMore
      cases h
      exact ⟨own, e₁, more, hOwn, hMore, rfl⟩

theorem concat_cons_eq_error {r : Rule} {rest : List Rule} {err : SchemaError}
    (h : concat expand (r :: rest) e = (.error err, e')) :
    expand r e = (.error err, e') ∨
      ∃ own e₁, expand r e = (.ok own, e₁) ∧ concat expand rest e₁ = (.error err, e') := by
  rw [concat] at h
  split at h
  · rename_i hOwn
    cases h
    exact Or.inl hOwn
  · rename_i own e₁ hOwn
    split at h
    · rename_i hRest
      cases h
      exact Or.inr ⟨own, e₁, hOwn, hRest⟩
    · cases h

theorem first_eq_map (x : Expansion) (e : Expander) :
    x.first e = ((x e).1.map (·.take 1), (x e).2) := by
  unfold first
  cases x e with
  | mk result e' => cases result <;> rfl

theorem first_of_ok {x : Expansion} (h : x e = (.ok shapes, e')) :
    x.first e = (.ok (shapes.take 1), e') := by
  simp only [first, h]

theorem first_eq_ok {x : Expansion} (h : x.first e = (.ok shapes, e')) :
    ∃ all, x e = (.ok all, e') ∧ shapes = all.take 1 := by
  unfold first at h
  split at h
  · cases h
  · rename_i all e₁ hx
    cases h
    exact ⟨all, hx, rfl⟩

theorem first_eq_error {x : Expansion} {err : SchemaError} (h : x.first e = (.error err, e')) :
    x e = (.error err, e') := by
  unfold first at h
  split at h
  · rename_i hx
    cases h
    exact hx
  · cases h

theorem inline_of_ok {name : String} {body : Rule}
    (h : expand body ((e.remember name []).report (.ruleInlined name)) = (.ok shapes, e')) :
    inline expand name body e = (.ok (firstSeen shapes), e'.remember name (firstSeen shapes)) := by
  simp only [inline, h]

theorem inline_of_error {name : String} {body : Rule} {err : SchemaError}
    (h : expand body ((e.remember name []).report (.ruleInlined name)) = (.error err, e')) :
    inline expand name body e = (.error err, e') := by
  simp only [inline, h]

theorem inline_eq_ok {name : String} {body : Rule} (h : inline expand name body e = (.ok shapes, e')) :
    ∃ own e₁, expand body ((e.remember name []).report (.ruleInlined name)) = (.ok own, e₁) ∧
      shapes = firstSeen own ∧ e' = e₁.remember name (firstSeen own) := by
  unfold inline at h
  split at h
  · cases h
  · rename_i own e₁ hOwn
    cases h
    exact ⟨own, e₁, hOwn, rfl, rfl⟩

theorem inline_eq_error {name : String} {body : Rule} {err : SchemaError}
    (h : inline expand name body e = (.error err, e')) :
    expand body ((e.remember name []).report (.ruleInlined name)) = (.error err, e') := by
  unfold inline at h
  split at h
  · rename_i hOwn
    cases h
    exact hOwn
  · cases h

end Expansion

theorem Expander.memo_ite_report (e : Expander) (b : Bool) (event : Event) :
    (if b then e.report event else e).memo = e.memo := by
  cases b <;> rfl

section Symbols

variable {name : String} (e)

theorem expandSymbol_of_dangling (hDangling : g.resolves name = false) :
    expandSymbol g o expand name e = (.error (.unknownRule name), e) := by
  simp [expandSymbol, hDangling]

theorem expandSymbol_of_visible (hResolves : g.resolves name = true) (hVisible : o.isHidden name = false) :
    expandSymbol g o expand name e = (.ok [.symbol name], e) := by
  simp [expandSymbol, hResolves, hVisible]

theorem expandSymbol_of_known (hResolves : g.resolves name = true) (hHidden : o.isHidden name = true)
    (hKnown : e.memo.lookup name = some own) :
    expandSymbol g o expand name e =
      (.ok own, if own.isEmpty then e.report (.cycleCut name) else e) := by
  simp [expandSymbol, hResolves, hHidden, hKnown]

theorem expandSymbol_of_token (hResolves : g.resolves name = true) (hHidden : o.isHidden name = true)
    (hNew : e.memo.lookup name = none) (hToken : g.rules.get? name = none) :
    expandSymbol g o expand name e = (.ok [], e) := by
  simp [expandSymbol, hResolves, hHidden, hNew, hToken]

theorem expandSymbol_of_body {body : Rule} (hResolves : g.resolves name = true)
    (hHidden : o.isHidden name = true) (hNew : e.memo.lookup name = none)
    (hBody : g.rules.get? name = some body) :
    expandSymbol g o expand name e = Expansion.inline expand name body e := by
  simp [expandSymbol, hResolves, hHidden, hNew, hBody]

end Symbols

variable (g o expand) in
inductive SymbolStep (name : String) (e : Expander) : List Shape → Expander → Prop where
  | visible (hResolves : g.resolves name = true) (hVisible : o.isHidden name = false) :
      SymbolStep name e [.symbol name] e
  | known {own : List Shape} (hResolves : g.resolves name = true) (hHidden : o.isHidden name = true)
      (hKnown : e.memo.lookup name = some own) :
      SymbolStep name e own (if own.isEmpty then e.report (.cycleCut name) else e)
  | token (hResolves : g.resolves name = true) (hHidden : o.isHidden name = true)
      (hNew : e.memo.lookup name = none) (hToken : g.rules.get? name = none) : SymbolStep name e [] e
  | inlined {body : Rule} {own : List Shape} {e₁ : Expander} (hResolves : g.resolves name = true)
      (hHidden : o.isHidden name = true) (hNew : e.memo.lookup name = none)
      (hBody : g.rules.get? name = some body)
      (hOwn : expand body ((e.remember name []).report (.ruleInlined name)) = (.ok own, e₁)) :
      SymbolStep name e (firstSeen own) (e₁.remember name (firstSeen own))

theorem expandSymbol_eq_ok_iff {name : String} :
    expandSymbol g o expand name e = (.ok shapes, e') ↔ SymbolStep g o expand name e shapes e' := by
  constructor
  · intro h
    cases hResolves : g.resolves name with
    | false =>
      rw [expandSymbol_of_dangling e hResolves] at h
      cases h
    | true =>
      cases hHidden : o.isHidden name with
      | false =>
        rw [expandSymbol_of_visible e hResolves hHidden] at h
        cases h
        exact .visible hResolves hHidden
      | true =>
        cases hKnown : e.memo.lookup name with
        | some own =>
          rw [expandSymbol_of_known e hResolves hHidden hKnown] at h
          cases h
          exact .known hResolves hHidden hKnown
        | none =>
          cases hBody : g.rules.get? name with
          | none =>
            rw [expandSymbol_of_token e hResolves hHidden hKnown hBody] at h
            cases h
            exact .token hResolves hHidden hKnown hBody
          | some body =>
            rw [expandSymbol_of_body e hResolves hHidden hKnown hBody] at h
            obtain ⟨own, e₁, hOwn, rfl, rfl⟩ := Expansion.inline_eq_ok h
            exact .inlined hResolves hHidden hKnown hBody hOwn
  · intro h
    cases h with
    | visible hResolves hVisible => exact expandSymbol_of_visible e hResolves hVisible
    | known hResolves hHidden hKnown => exact expandSymbol_of_known e hResolves hHidden hKnown
    | token hResolves hHidden hNew hToken => exact expandSymbol_of_token e hResolves hHidden hNew hToken
    | inlined hResolves hHidden hNew hBody hOwn =>
      rw [expandSymbol_of_body e hResolves hHidden hNew hBody]
      exact Expansion.inline_of_ok hOwn

theorem expandNode_of_isTransparent {r : Rule} (h : r.isTransparent = true) :
    expandNode g o expand r = Expansion.concat expand r.children := by
  cases r with
  | blank | sequence _ | choice _ => rfl
  | zeroOrMore content | oneOrMore content | ranked _ content | rankedLeft _ content =>
    exact (Expansion.concat_singleton expand content).symm
  | «alias» _ _ _ | field _ _ | literal _ | pattern _ _ | symbol _ => cases h

theorem expandNode_of_isSingleValued {r : Rule} (h : r.isSingleValued = true) :
    expandNode g o expand r = (Expansion.concat expand r.children).first := by
  cases r with
  | «alias» content _ _ | field _ content =>
    exact congrArg Expansion.first (Expansion.concat_singleton expand content).symm
  | blank | sequence _ | choice _ | zeroOrMore _ | oneOrMore _ | ranked _ _ | rankedLeft _ _
    | literal _ | pattern _ _ | symbol _ => cases h

theorem expandWithin_succ_of_ok {room : Nat} {r : Rule}
    (h : expandNode g o (expandWithin g o room) r e.enter = (.ok shapes, e')) :
    expandWithin g o (room + 1) r e = (.ok shapes, e'.leave) := by
  rw [expandWithin, h]

theorem expandWithin_succ_eq_ok {room : Nat} {r : Rule}
    (h : expandWithin g o (room + 1) r e = (.ok shapes, e')) :
    ∃ e₁, expandNode g o (expandWithin g o room) r e.enter = (.ok shapes, e₁) ∧ e' = e₁.leave := by
  cases hNode : expandNode g o (expandWithin g o room) r e.enter with
  | mk result e₁ =>
    rw [expandWithin, hNode] at h
    cases h
    exact ⟨e₁, rfl, rfl⟩

end GrammarShapes
