import GrammarShapes.Proofs.Expansion.Collected

set_option autoImplicit false

/-! # The shapes that a node can reach

`Reaches` says which shapes can be come to from a node by taking sub-rules and the bodies of hidden rules,
in any order and as often as one likes. Expansion gives no other shapes; it gives all of them where no alias
and no field lies on the way, however the hidden rules refer to each other.
-/

namespace GrammarShapes

variable (g : Grammar) (o : Options)

inductive Reaches : Rule → Shape → Prop where
  | literal (text : String) : Reaches (.literal text) (.literal text)
  | pattern (regex : String) (flags : Option String) : Reaches (.pattern regex flags) .pattern
  | visible {name : String} (hResolves : g.resolves name = true) (hVisible : o.isHidden name = false) :
      Reaches (.symbol name) (.symbol name)
  | inlined {name : String} {body : Rule} {s : Shape} (hHidden : o.isHidden name = true)
      (hBody : g.rules.get? name = some body) (hReaches : Reaches body s) : Reaches (.symbol name) s
  | child {r c : Rule} {s : Shape} (hc : c ∈ r.children) (hReaches : Reaches c s) : Reaches r s

/-- Neither the node nor the body of any hidden rule that it can come to has an alias or a field in it. -/
def KeepsAll (r : Rule) : Prop :=
  ∀ t, Meets g o r t → t.isSingleValued = false

def Memo.Reached (m : Memo) : Prop :=
  ∀ name own, m.lookup name = some own → ∀ s ∈ own, Reaches g o (.symbol name) s

variable {g : Grammar} {o : Options} {m m' : Memo}

theorem Shows.reaches {r : Rule} {own : List Shape} {s : Shape} (h : Shows g o r own) (hs : s ∈ own) :
    Reaches g o r s := by
  cases h with
  | literal text =>
    obtain rfl := List.mem_singleton.mp hs
    exact .literal text
  | pattern regex flags =>
    obtain rfl := List.mem_singleton.mp hs
    exact .pattern regex flags
  | visible hResolves hVisible =>
    obtain rfl := List.mem_singleton.mp hs
    exact .visible hResolves hVisible
  | token => cases hs

theorem Reaches.resolves_of_symbol {r : Rule} {name : String} (h : Reaches g o r (.symbol name)) :
    g.resolves name = true ∧ o.isHidden name = false := by
  generalize hs : Shape.symbol name = s at h
  induction h with
  | literal | pattern => cases hs
  | visible hResolves hVisible =>
    cases hs
    exact ⟨hResolves, hVisible⟩
  | inlined _ _ _ ih | child _ _ ih => exact ih hs

theorem Memo.Reached.cons {name : String} {own : List Shape} (hMemo : m.Reached g o)
    (hOwn : ∀ s ∈ own, Reaches g o (.symbol name) s) : Memo.Reached g o ((name, own) :: m) := by
  intro other list hList s hs
  rw [Memo.lookup_cons] at hList
  split at hList
  · rename_i hOther
    cases hList
    exact hOther ▸ hOwn s hs
  · exact hMemo other list hList s hs

theorem reaches_append {r : Rule} {rest : List Rule} {own shapes : List Shape}
    (hOwn : ∀ s ∈ own, Reaches g o r s) (hRest : ∀ s ∈ shapes, ∃ t ∈ rest, Reaches g o t s) :
    ∀ s ∈ own ++ shapes, ∃ t ∈ r :: rest, Reaches g o t s := by
  intro s hs
  rcases List.mem_append.mp hs with hs | hs
  · exact ⟨r, List.mem_cons_self, hOwn s hs⟩
  · obtain ⟨t, ht, hReaches⟩ := hRest s hs
    exact ⟨t, List.mem_cons_of_mem _ ht, hReaches⟩

theorem Run.reaches {rs : List Rule} {shapes : List Shape} (h : Run g o m rs shapes m')
    (hMemo : m.Reached g o) : (∀ s ∈ shapes, ∃ r ∈ rs, Reaches g o r s) ∧ m'.Reached g o := by
  induction h with
  | nil => exact ⟨fun _ hs => (by cases hs), hMemo⟩
  | shown hOwn _ ih =>
    obtain ⟨hRest, hMemo'⟩ := ih hMemo
    exact ⟨reaches_append (fun _ hs => hOwn.reaches hs) hRest, hMemo'⟩
  | known _ hKnown _ ih =>
    obtain ⟨hRest, hMemo'⟩ := ih hMemo
    exact ⟨reaches_append (hMemo _ _ hKnown) hRest, hMemo'⟩
  | @inlined _ _ _ name body _ own _ hHidden _ hBody _ _ ihOwn ih =>
    obtain ⟨hOwn, hMemo₁⟩ := ihOwn (hMemo.cons fun _ hs => (by cases hs))
    have hName : ∀ s ∈ firstSeen own, Reaches g o (.symbol name) s := by
      intro s hs
      obtain ⟨t, ht, hReaches⟩ := hOwn s (mem_firstSeen_iff.mp hs)
      obtain rfl := List.mem_singleton.mp ht
      exact .inlined hHidden hBody hReaches
    obtain ⟨hRest, hMemo'⟩ := ih (hMemo₁.cons hName)
    exact ⟨reaches_append hName hRest, hMemo'⟩
  | single _ _ _ ihOwn ih =>
    obtain ⟨hOwn, hMemo₁⟩ := ihOwn hMemo
    obtain ⟨hRest, hMemo'⟩ := ih hMemo₁
    refine ⟨reaches_append (fun s hs => ?_) hRest, hMemo'⟩
    obtain ⟨c, hc, hReaches⟩ := hOwn s (List.mem_of_mem_take hs)
    exact .child hc hReaches
  | transparent _ _ _ ihOwn ih =>
    obtain ⟨hOwn, hMemo₁⟩ := ihOwn hMemo
    obtain ⟨hRest, hMemo'⟩ := ih hMemo₁
    refine ⟨reaches_append (fun s hs => ?_) hRest, hMemo'⟩
    obtain ⟨c, hc, hReaches⟩ := hOwn s hs
    exact .child hc hReaches

theorem Rule.isTransparent_of_mem_children {r c : Rule} (hc : c ∈ r.children)
    (hSingle : r.isSingleValued = false) : r.isTransparent = true := by
  cases r with
  | blank | sequence _ | choice _ | zeroOrMore _ | oneOrMore _ | ranked _ _ | rankedLeft _ _ => rfl
  | «alias» _ _ _ | field _ _ => cases hSingle
  | literal _ | pattern _ _ | symbol _ => cases hc

theorem KeepsAll.of_opened {r t : Rule} (h : KeepsAll g o r) (ht : t ∈ opened g o r) :
    KeepsAll g o t := fun u hMeets => h u ((Meets.of_opened ht).trans hMeets)

theorem KeepsAll.gives_iff {r : Rule} {s : Shape} (h : KeepsAll g o r) :
    Gives g o (fun _ => none) r s ↔ Reaches g o r s := by
  constructor
  · intro hGives
    induction hGives with
    | fixed hFixed => cases hFixed
    | shown _ hOwn hs => exact hOwn.reaches hs
    | inlined _ hHidden hBody _ ih =>
      exact .inlined hHidden hBody (ih (h.of_opened (mem_opened_symbol_iff.mpr ⟨hHidden, hBody⟩)))
    | member _ _ hc _ ih => exact .child hc (ih (h.of_opened (mem_opened_of_mem_children hc)))
  · intro hReaches
    induction hReaches with
    | literal text => exact .shown rfl (.literal text) List.mem_cons_self
    | pattern regex flags => exact .shown rfl (.pattern regex flags) List.mem_cons_self
    | visible hResolves hVisible =>
      exact .shown rfl (.visible hResolves hVisible) List.mem_cons_self
    | inlined hHidden hBody _ ih =>
      have hBodyKeeps := h.of_opened (mem_opened_symbol_iff.mpr ⟨hHidden, hBody⟩)
      exact .inlined rfl hHidden hBody (ih hBodyKeeps)
    | @child r c _ hc _ ih =>
      have hTransparent := Rule.isTransparent_of_mem_children hc (h r (Meets.refl r))
      exact .member rfl hTransparent hc (ih (h.of_opened (mem_opened_of_mem_children hc)))

theorem steady_none : Steady g o (fun _ => none) (fun _ => True) where
  empty := trivial
  fixed_of_opened _ _ h := by cases h
  remember _ _ _ _ _ _ _ := trivial
  entry _ _ _ _ _ h := by cases h
  run _ _ _ _ _ h := by cases h

theorem KeepsAll.fixesSingles {r : Rule} (h : KeepsAll g o r) : FixesSingles g o (fun _ => none) r := by
  intro t hMeets hSingle
  rw [h t hMeets] at hSingle
  cases hSingle

/-- An expansion that succeeds gives only shapes that the node reaches, so that it names only visible
rules and tokens, and where no alias and no field is met it gives all of them. -/
theorem shapes_reached_of_expandFresh {r : Rule} {shapes : List Shape}
    (h : (expandFresh g o r).1 = .ok shapes) :
    (∀ s ∈ shapes, Reaches g o r s) ∧
    (∀ name, .symbol name ∈ shapes → g.resolves name = true ∧ o.isHidden name = false) ∧
    (KeepsAll g o r → ∀ s, s ∈ shapes ↔ Reaches g o r s) := by
  obtain ⟨m', hRun⟩ := Run.of_expandFresh h
  have hSound : ∀ s ∈ shapes, Reaches g o r s := by
    intro s hs
    obtain ⟨t, ht, hReaches⟩ := (hRun.reaches fun _ _ hNone => (by cases hNone)).1 s hs
    obtain rfl := List.mem_singleton.mp ht
    exact hReaches
  refine ⟨hSound, fun name hs => (hSound _ hs).resolves_of_symbol, ?_⟩
  intro hKeeps s
  have hSingles : ∀ t ∈ [r], FixesSingles g o (fun _ => none) t := by
    intro t ht
    obtain rfl := List.mem_singleton.mp ht
    exact hKeeps.fixesSingles
  rw [hRun.mem_iff_gives steady_none hSingles s, ← hKeeps.gives_iff]
  simp

def circular : Grammar :=
  ((Grammar.withRule {} "_a" (.choice [.symbol "_b", .literal "a"])).withRule "_b"
    (.choice [.symbol "_a", .symbol "_b", .pattern "[0-9]" none])).withRule "v" .blank

theorem circular_keepsAll : KeepsAll circular {} (.sequence [.symbol "_a", .symbol "v"]) := by
  intro t hMeets
  have hNodes : t ∈ [Rule.sequence [.symbol "_a", .symbol "v"], .symbol "_a", .symbol "v", .symbol "_b",
      .choice [.symbol "_b", .literal "a"], .literal "a",
      .choice [.symbol "_a", .symbol "_b", .pattern "[0-9]" none], .pattern "[0-9]" none] :=
    hMeets.mem_of_closed (by decide) (by decide)
  have hAll : ∀ u ∈ [Rule.sequence [.symbol "_a", .symbol "v"], .symbol "_a", .symbol "v", .symbol "_b",
      .choice [.symbol "_b", .literal "a"], .literal "a",
      .choice [.symbol "_a", .symbol "_b", .pattern "[0-9]" none], .pattern "[0-9]" none],
      u.isSingleValued = false := by decide
  exact hAll t hNodes

theorem circular_reaches :
    Reaches circular {} (.sequence [.symbol "_a", .symbol "v"]) .pattern ∧
    Reaches circular {} (.sequence [.symbol "_a", .symbol "v"]) (.literal "a") ∧
    ¬ Reaches circular {} (.sequence [.symbol "_a", .symbol "v"]) (.literal "b") := by
  have hShapes : (expandFresh circular {} (.sequence [.symbol "_a", .symbol "v"])).1 =
      .ok [.pattern, .literal "a", .symbol "v"] := rfl
  obtain ⟨-, -, hAll⟩ := shapes_reached_of_expandFresh hShapes
  have hIff := hAll circular_keepsAll
  refine ⟨(hIff _).mp (by decide), (hIff _).mp (by decide), fun hReaches => ?_⟩
  exact absurd ((hIff _).mpr hReaches) (by decide)

end GrammarShapes
