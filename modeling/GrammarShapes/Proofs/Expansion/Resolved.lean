import GrammarShapes.Proofs.Expansion.Levels

set_option autoImplicit false

/-! # Nodes whose symbols resolve

With enough levels the expansion of a node succeeds if and only if every symbol that the node can come to
resolves. An expansion inlines each hidden rule at most once, so that some number of levels suffices; and it
passes over no symbol, because it leaves the body of every rule that it remembers spanned.
-/

namespace GrammarShapes

variable {g : Grammar} {o : Options}

theorem Grammar.resolves_of_get? {name : String} {body : Rule} (h : g.rules.get? name = some body) :
    g.resolves name = true := by
  obtain ⟨entry, hEntry, rfl⟩ := List.mem_map.mp (Directory.mem_names_of_get? h)
  have hContains : g.rules.contains entry.1 = true :=
    List.any_eq_true.mpr ⟨entry, hEntry, beq_self_eq_true _⟩
  rw [Grammar.resolves, hContains, Bool.true_or]

def Memo.countNew (g : Grammar) (m : Memo) : Nat :=
  g.rules.names.countP fun name => (m.lookup name).isNone

theorem Memo.countNew_le {m m' : Memo}
    (h : ∀ name, (m.lookup name).isSome = true → (m'.lookup name).isSome = true) :
    m'.countNew g ≤ m.countNew g := by
  apply List.countP_mono_left
  intro name _ hNew
  rw [Option.isNone_iff_eq_none] at hNew ⊢
  cases hKnown : m.lookup name with
  | none => rfl
  | some own =>
    have hSome := h name (Option.isSome_of_eq_some hKnown)
    rw [hNew] at hSome
    cases hSome

theorem countP_lt_of_mem {α : Type} {p q : α → Bool} {xs : List α} {y : α}
    (hImp : ∀ x ∈ xs, p x = true → q x = true) (hy : y ∈ xs) (hq : q y = true) (hp : p y = false) :
    xs.countP p < xs.countP q := by
  induction xs with
  | nil => cases hy
  | cons x xs ih =>
    have hTail : ∀ z ∈ xs, p z = true → q z = true := fun z hz => hImp z (List.mem_cons_of_mem _ hz)
    rw [List.countP_cons, List.countP_cons]
    rcases List.mem_cons.mp hy with rfl | hy
    · have hLe := List.countP_mono_left hTail
      rw [hq, hp]
      simp
      omega
    · have hLt := ih hTail hy
      have hHead := hImp x List.mem_cons_self
      cases hx : p x with
      | true =>
        rw [hHead hx]
        omega
      | false =>
        simp
        omega

theorem Memo.countNew_cons_lt {m : Memo} {name : String} {body : Rule} {own : List Shape}
    (hBody : g.rules.get? name = some body) (hNew : m.lookup name = none) :
    Memo.countNew g ((name, own) :: m) < m.countNew g := by
  refine countP_lt_of_mem (fun other _ hOther => ?_) (Directory.mem_names_of_get? hBody) ?_ ?_
  · rw [Memo.lookup_cons] at hOther
    split at hOther
    · cases hOther
    · exact hOther
  · rw [hNew]
    rfl
  · rw [Memo.lookup_cons_self]
    rfl

variable (g o) in
def Resolved (r : Rule) : Prop :=
  ∀ name, Meets g o r (.symbol name) → g.resolves name = true

theorem Resolved.of_meets {r t : Rule} (h : Resolved g o r) (hMeets : Meets g o r t) :
    Resolved g o t := fun name hName => h name (hMeets.trans hName)

theorem Resolved.exists_room_node {r : Rule} {e : Expander} (h : Resolved g o r)
    (hRow : ∃ room own e₁, Expansion.concat (expandWithin g o room) r.children e = (.ok own, e₁))
    (hBody : ∀ name body, r = .symbol name → e.memo.lookup name = none → body ∈ opened g o r →
      ∃ room own e₁, expandWithin g o room body ((e.remember name []).report (.ruleInlined name)) =
        (.ok own, e₁)) :
    ∃ room own e₁, expandNode g o (expandWithin g o room) r e = (.ok own, e₁) := by
  obtain ⟨room, own, e₁, hOwn⟩ := hRow
  cases r using Rule.byKind with
  | transparent r hTransparent =>
    exact ⟨room, own, e₁, (expandNode_of_isTransparent hTransparent).symm ▸ hOwn⟩
  | single r hSingle =>
    refine ⟨room, own.take 1, e₁, ?_⟩
    rw [expandNode_of_isSingleValued hSingle]
    exact Expansion.first_of_ok hOwn
  | literal | pattern => exact ⟨room, _, _, rfl⟩
  | symbol name =>
    have hResolves := h name (Meets.refl _)
    cases hHidden : o.isHidden name with
    | false => exact ⟨room, _, _, expandSymbol_of_visible e hResolves hHidden⟩
    | true =>
      cases hKnown : e.memo.lookup name with
      | some known => exact ⟨room, _, _, expandSymbol_of_known e hResolves hHidden hKnown⟩
      | none =>
        cases hGet : g.rules.get? name with
        | none => exact ⟨room, _, _, expandSymbol_of_token e hResolves hHidden hKnown hGet⟩
        | some body =>
          obtain ⟨room, own, e₁, hOwn⟩ :=
            hBody name body rfl hKnown (mem_opened_symbol_iff.mpr ⟨hHidden, hGet⟩)
          exact ⟨room, _, _, expandSymbol_eq_ok_iff.mpr (.inlined hResolves hHidden hKnown hGet hOwn)⟩

/-- Where every symbol resolves, some number of levels suffices for a row of nodes. The recursion is on
the rules that are not remembered and, for as long as none is added, on the row. -/
theorem exists_room_concat (rs : List Rule) (e : Expander) (h : ∀ r ∈ rs, Resolved g o r) :
    ∃ room shapes e', Expansion.concat (expandWithin g o room) rs e = (.ok shapes, e') := by
  match rs with
  | [] => exact ⟨0, [], e, rfl⟩
  | r :: rest =>
    have hHead : Resolved g o r := h r List.mem_cons_self
    have hNode : ∃ room own e₁, expandNode g o (expandWithin g o room) r e.enter = (.ok own, e₁) := by
      apply hHead.exists_room_node
      · apply exists_room_concat r.children e.enter
        exact fun c hc => hHead.of_meets (Meets.of_mem_children hc)
      · rintro name body rfl hNew hOpened
        have hBody := exists_room_concat [body] ((e.enter.remember name []).report (.ruleInlined name))
          (List.forall_mem_singleton.mpr (hHead.of_meets (Meets.of_opened hOpened)))
        simpa only [Expansion.concat_singleton] using hBody
    obtain ⟨room, own, e₁, hOwn⟩ := hNode
    have hWithin := expandWithin_succ_of_ok hOwn
    obtain ⟨room', more, e', hMore⟩ := exists_room_concat rest e₁.leave
      (fun t ht => h t (List.mem_cons_of_mem _ ht))
    refine ⟨max (room + 1) room', own ++ more, e', ?_⟩
    apply Expansion.concat_cons_of_ok (expandWithin_of_le (Nat.le_max_left _ _) hWithin)
    exact concat_expandWithin_of_le (Nat.le_max_right _ _) hMore
termination_by (Memo.countNew g e.memo, Rule.sizeAll rs)
decreasing_by
  · apply Prod.Lex.right
    rw [Rule.sizeAll, Rule.size_eq]
    omega
  · apply Prod.Lex.left
    exact Memo.countNew_cons_lt (mem_opened_symbol_iff.mp hOpened).2 hNew
  · have hLe : Memo.countNew g e₁.leave.memo ≤ Memo.countNew g e.memo :=
      Memo.countNew_le fun name => (Run.of_expandWithin hWithin).isSome_lookup
    rcases Nat.lt_or_eq_of_le hLe with hLt | hEq
    · exact Prod.Lex.left _ _ hLt
    · rw [hEq]
      apply Prod.Lex.right
      rw [Rule.sizeAll, Rule.size_eq]
      omega

theorem Resolved.exists_room {r : Rule} (h : Resolved g o r) :
    ∃ room shapes e', expandWithin g o room r {} = (.ok shapes, e') := by
  have hRow := exists_room_concat [r] {} (List.forall_mem_singleton.mpr h)
  simpa only [Expansion.concat_singleton] using hRow

section Spanned

variable (g o)

/-- Whether all symbols at or below a node resolve and all hidden rules among them are remembered. -/
inductive Spanned (m : Memo) : Rule → Prop where
  | symbol {name : String} (hResolves : g.resolves name = true)
      (hKnown : ∀ body, body ∈ opened g o (.symbol name) → (m.lookup name).isSome = true) :
      Spanned m (.symbol name)
  | node {r : Rule} (hNode : r.symbol? = none) (hMembers : ∀ c ∈ r.children, Spanned m c) : Spanned m r

/-- A step from `m` to `m'` forgets no rule, and leaves the row spanned and the body of every rule that it
adds. -/
structure Spans (m : Memo) (rs : List Rule) (m' : Memo) : Prop where
  grows : ∀ name, (m.lookup name).isSome = true → (m'.lookup name).isSome = true
  row : ∀ r ∈ rs, Spanned g o m' r
  added : ∀ name body, (m'.lookup name).isSome = true → m.lookup name = none →
    g.rules.get? name = some body → Spanned g o m' body

def Memo.Backed (m : Memo) : Prop :=
  ∀ name, (m.lookup name).isSome = true → ∃ body, body ∈ opened g o (.symbol name)

end Spanned

variable {m m₁ m' : Memo}

theorem Rule.symbol?_of_isSingleValued {r : Rule} (h : r.isSingleValued = true) : r.symbol? = none := by
  cases r <;> first | rfl | cases h

theorem Rule.symbol?_of_isTransparent {r : Rule} (h : r.isTransparent = true) : r.symbol? = none := by
  cases r <;> first | rfl | cases h

theorem Rule.eq_symbol_of_symbol? {r : Rule} {name : String} (h : r.symbol? = some name) :
    r = .symbol name := by
  cases r with
  | symbol other => exact congrArg Rule.symbol (Option.some.inj h)
  | _ => cases h

theorem opened_of_symbol?_eq_none {r : Rule} (h : r.symbol? = none) : opened g o r = r.children := by
  cases r <;> first | rfl | cases h

theorem Spanned.mono {r : Rule} (h : Spanned g o m r)
    (hMemo : ∀ name, (m.lookup name).isSome = true → (m'.lookup name).isSome = true) :
    Spanned g o m' r := by
  induction h with
  | symbol hResolves hKnown => exact .symbol hResolves fun body hBody => hMemo _ (hKnown body hBody)
  | node hNode _ ih => exact .node hNode ih

theorem Shows.spanned {r : Rule} {own : List Shape} (h : Shows g o r own) : Spanned g o m r := by
  cases h with
  | literal | pattern => exact .node rfl fun _ hc => by cases hc
  | visible hResolves hVisible =>
    refine .symbol hResolves fun body hBody => ?_
    rw [mem_opened_symbol_iff, hVisible] at hBody
    cases hBody.1
  | token hResolves _ hToken =>
    refine .symbol hResolves fun body hBody => ?_
    rw [mem_opened_symbol_iff, hToken] at hBody
    cases hBody.2

theorem Spanned.of_meets {r t : Rule} (h : Spanned g o m r)
    (hBodies : ∀ name body, (m.lookup name).isSome = true → Meets g o r (.symbol name) →
      g.rules.get? name = some body → Spanned g o m body)
    (hMeets : Meets g o r t) : Spanned g o m t := by
  induction hMeets with
  | refl => exact h
  | tail hBefore hOpened ih =>
    cases ih with
    | symbol _ hKnown =>
      exact hBodies _ _ (hKnown _ hOpened) hBefore (mem_opened_symbol_iff.mp hOpened).2
    | node hNode hMembers =>
      rw [opened_of_symbol?_eq_none hNode] at hOpened
      exact hMembers _ hOpened

theorem Memo.Backed.cons {name : String} {body : Rule} {own : List Shape} (h : m.Backed g o)
    (hBody : body ∈ opened g o (.symbol name)) : Memo.Backed g o ((name, own) :: m) := by
  intro other hOther
  rw [Memo.lookup_cons] at hOther
  split at hOther
  · rename_i hName
    exact ⟨body, hName ▸ hBody⟩
  · exact h other hOther

namespace Spans

theorem nil (m : Memo) : Spans g o m [] m where
  grows _ h := h
  row _ h := by cases h
  added name body h hNew := by
    rw [hNew] at h
    cases h

theorem refl {r : Rule} (h : Spanned g o m r) : Spans g o m [r] m where
  grows _ h := h
  row := List.forall_mem_singleton.mpr h
  added name body h hNew := by
    rw [hNew] at h
    cases h

theorem cons {r : Rule} {rest : List Rule} (h : Spans g o m [r] m₁) (h' : Spans g o m₁ rest m') :
    Spans g o m (r :: rest) m' where
  grows name hName := h'.grows name (h.grows name hName)
  row := List.forall_mem_cons.mpr ⟨(h.row r List.mem_cons_self).mono h'.grows, h'.row⟩
  added name body hName hNew hBody := by
    cases hKnown : m₁.lookup name with
    | none => exact h'.added name body hName hKnown hBody
    | some entry => exact (h.added name body (Option.isSome_of_eq_some hKnown) hNew hBody).mono h'.grows

theorem node {r : Rule} (hNode : r.symbol? = none) (h : Spans g o m r.children m') :
    Spans g o m [r] m' where
  grows := h.grows
  row := List.forall_mem_singleton.mpr (.node hNode h.row)
  added := h.added

theorem inlined {name : String} {body : Rule} {own : List Shape} (hBody : g.rules.get? name = some body)
    (h : Spans g o ((name, []) :: m) [body] m₁) : Spans g o m [.symbol name] ((name, own) :: m₁) := by
  have hGrows : ∀ other, (m₁.lookup other).isSome = true →
      (List.lookup other ((name, own) :: m₁)).isSome = true := fun _ => Memo.isSome_lookup_cons _
  have hName : (List.lookup name ((name, own) :: m₁)).isSome = true :=
    Option.isSome_of_eq_some (Memo.lookup_cons_self _ _ _)
  refine ⟨fun other hOther => hGrows other (h.grows other (Memo.isSome_lookup_cons _ hOther)), ?_, ?_⟩
  · exact List.forall_mem_singleton.mpr (.symbol (Grammar.resolves_of_get? hBody) fun _ _ => hName)
  · intro other otherBody hOther hNew hOtherBody
    by_cases hSame : other = name
    · subst hSame
      rw [hBody] at hOtherBody
      cases hOtherBody
      exact (h.row body List.mem_cons_self).mono hGrows
    · rw [Memo.lookup_cons_of_ne _ _ hSame] at hOther
      have hOtherNew : List.lookup other ((name, []) :: m) = none :=
        (Memo.lookup_cons_of_ne _ _ hSame).trans hNew
      exact (h.added other otherBody hOther hOtherNew hOtherBody).mono hGrows

end Spans

namespace Run

theorem backed {rs : List Rule} {shapes : List Shape} (h : Run g o m rs shapes m')
    (hMemo : m.Backed g o) : m'.Backed g o := by
  induction h with
  | nil => exact hMemo
  | shown _ _ ih | known _ _ _ ih => exact ih hMemo
  | single _ _ _ ihOwn ih | transparent _ _ _ ihOwn ih => exact ih (ihOwn hMemo)
  | inlined hHidden _ hBody _ _ ihOwn ih =>
    have hOpened := mem_opened_symbol_iff.mpr ⟨hHidden, hBody⟩
    exact ih ((ihOwn (hMemo.cons hOpened)).cons hOpened)

theorem spans {rs : List Rule} {shapes : List Shape} (h : Run g o m rs shapes m') (hMemo : m.Backed g o) :
    Spans g o m rs m' := by
  induction h with
  | nil m => exact .nil m
  | shown hOwn _ ih => exact .cons (.refl hOwn.spanned) (ih hMemo)
  | @known m _ name _ own _ _ hKnown _ ih =>
    have hSome : (m.lookup name).isSome = true := Option.isSome_of_eq_some hKnown
    obtain ⟨body, hOpened⟩ := hMemo name hSome
    have hBody := (mem_opened_symbol_iff.mp hOpened).2
    have hHead : Spanned g o m (.symbol name) :=
      .symbol (Grammar.resolves_of_get? hBody) fun _ _ => hSome
    exact .cons (.refl hHead) (ih hMemo)
  | inlined hHidden _ hBody hOwn _ ihOwn ih =>
    have hOpened := mem_opened_symbol_iff.mpr ⟨hHidden, hBody⟩
    have hMemo₁ := hOwn.backed (hMemo.cons hOpened)
    exact .cons (.inlined hBody (ihOwn (hMemo.cons hOpened))) (ih (hMemo₁.cons hOpened))
  | single hSingle hOwn _ ihOwn ih =>
    have hNode := Rule.symbol?_of_isSingleValued hSingle
    exact .cons (.node hNode (ihOwn hMemo)) (ih (hOwn.backed hMemo))
  | transparent hTransparent hOwn _ ihOwn ih =>
    have hNode := Rule.symbol?_of_isTransparent hTransparent
    exact .cons (.node hNode (ihOwn hMemo)) (ih (hOwn.backed hMemo))

theorem resolved {rs : List Rule} {shapes : List Shape} (h : Run g o [] rs shapes m') {r : Rule}
    (hr : r ∈ rs) : Resolved g o r := by
  have hSpans := h.spans fun name hName => by cases hName
  intro name hMeets
  have hSpanned : Spanned g o m' (.symbol name) := by
    apply (hSpans.row r hr).of_meets _ hMeets
    exact fun other body hOther _ hBody => hSpans.added other body hOther rfl hBody
  cases hSpanned with
  | symbol hResolves => exact hResolves
  | node hNode => cases hNode

theorem exists_opened {name other : String} {own : List Shape} (h : Run g o [] [.symbol name] own m')
    (hOther : (m'.lookup other).isSome = true) : ∃ body, body ∈ opened g o (.symbol name) := by
  obtain ⟨otherBody, hOtherBody⟩ := h.backed (fun _ hNone => by cases hNone) other hOther
  rcases h.known_or_meets hOther with hOld | ⟨r, hr, hMeets⟩
  · cases hOld
  · obtain rfl := List.mem_singleton.mp hr
    rcases Relation.ReflTransGen.cases_head hMeets with hSame | ⟨body, hBody, -⟩
    · exact ⟨otherBody, hSame ▸ hOtherBody⟩
    · exact ⟨body, hBody⟩

end Run

end GrammarShapes
