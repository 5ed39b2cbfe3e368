import GrammarShapes.Proofs.Expansion.Run

set_option autoImplicit false

/-! # What a run collects

A rule that is met again while it is open gives nothing, and an entry that is completed inside it lacks what
the outer rule gives. Nothing is lost by this where every shape is passed on: the outer run collects what
the entry lacks. `Run.mem_iff_gives` says so for runs in which every single-valued node is fixed, that is,
has the same shapes whatever is remembered.

The invariant is `Collects`: the shapes of a run cover the row and the body of every rule that the run has
remembered, where a reference to a rule is covered as soon as the rule is remembered.
-/

namespace GrammarShapes

variable (g : Grammar) (o : Options) (fixed : Rule → Option (List Shape))

/-- The shapes that a node gives: those of its list if the list is fixed, or else those that the node shows
and those that the nodes it opens give. -/
inductive Gives : Rule → Shape → Prop where
  | fixed {r : Rule} {list : List Shape} {s : Shape} (hFixed : fixed r = some list) (hs : s ∈ list) :
      Gives r s
  | shown {r : Rule} {own : List Shape} {s : Shape} (hFree : fixed r = none) (hOwn : Shows g o r own)
      (hs : s ∈ own) : Gives r s
  | inlined {name : String} {body : Rule} {s : Shape} (hFree : fixed (.symbol name) = none)
      (hHidden : o.isHidden name = true) (hBody : g.rules.get? name = some body)
      (hGives : Gives body s) : Gives (.symbol name) s
  | member {r c : Rule} {s : Shape} (hFree : fixed r = none) (hTransparent : r.isTransparent = true)
      (hc : c ∈ r.children) (hGives : Gives c s) : Gives r s

/-- Whether `shapes` hold what a node gives, apart from what the rules in `m` give. -/
inductive Covered (m : Memo) (shapes : List Shape) : Rule → Prop where
  | fixed {r : Rule} {list : List Shape} (hFixed : fixed r = some list) (hList : list ⊆ shapes) :
      Covered m shapes r
  | shown {r : Rule} {own : List Shape} (hFree : fixed r = none) (hOwn : Shows g o r own)
      (hShapes : own ⊆ shapes) : Covered m shapes r
  | known {name : String} (hFree : fixed (.symbol name) = none) (hHidden : o.isHidden name = true)
      (hKnown : (m.lookup name).isSome = true) : Covered m shapes (.symbol name)
  | transparent {r : Rule} (hFree : fixed r = none) (hTransparent : r.isTransparent = true)
      (hMembers : ∀ c ∈ r.children, Covered m shapes c) : Covered m shapes r

variable (keeps : Memo → Prop)

/-- A memo is kept in order, and its entries hold only what the rules give. -/
structure Memo.Sound (m : Memo) : Prop where
  keeps : keeps m
  gives : ∀ name own, m.lookup name = some own → ∀ s ∈ own, Gives g o fixed (.symbol name) s

/-- From any memo that is kept in order a fixed node has the shapes of its list, as has its entry, and what
it opens is fixed. Rules that are not fixed can be remembered with any shapes. -/
structure Steady : Prop where
  empty : keeps []
  fixed_of_opened : ∀ r t, (fixed r).isSome = true → t ∈ opened g o r → (fixed t).isSome = true
  remember : ∀ m name body own, fixed (.symbol name) = none → body ∈ opened g o (.symbol name) →
    keeps m → keeps ((name, own) :: m)
  entry : ∀ m name own list, keeps m → fixed (.symbol name) = some list → m.lookup name = some own →
    ∀ s, s ∈ own ↔ s ∈ list
  run : ∀ m m' r own list, fixed r = some list → keeps m → Run g o m [r] own m' →
    keeps m' ∧ ∀ s, s ∈ own ↔ s ∈ list

def FixesSingles (r : Rule) : Prop :=
  ∀ t, Meets g o r t → t.isSingleValued = true → (fixed t).isSome = true

structure Collects (m : Memo) (rs : List Rule) (shapes : List Shape) (m' : Memo) : Prop where
  sound : m'.Sound g o fixed keeps
  grows : ∀ name, (m.lookup name).isSome = true → (m'.lookup name).isSome = true
  gives : ∀ s ∈ shapes, ∃ r ∈ rs, Gives g o fixed r s
  covers : ∀ r ∈ rs, Covered g o fixed m' shapes r
  remembered : ∀ name body, (m'.lookup name).isSome = true → m.lookup name = none →
    fixed (.symbol name) = none → g.rules.get? name = some body → Covered g o fixed m' shapes body

variable {g : Grammar} {o : Options} {fixed : Rule → Option (List Shape)} {keeps : Memo → Prop}
  {m m₁ m' : Memo}

theorem FixesSingles.of_opened {r t : Rule} (h : FixesSingles g o fixed r) (ht : t ∈ opened g o r) :
    FixesSingles g o fixed t := fun u hMeets =>
  h u ((Meets.of_opened ht).trans hMeets)

theorem Steady.of_meets {r t : Rule} (hSteady : Steady g o fixed keeps) (hMeets : Meets g o r t)
    (hFixed : (fixed r).isSome = true) : (fixed t).isSome = true := by
  induction hMeets with
  | refl => exact hFixed
  | tail _ hOpened ih => exact hSteady.fixed_of_opened _ _ ih hOpened

theorem Covered.mono {shapes shapes' : List Shape} {r : Rule} (h : Covered g o fixed m shapes r)
    (hMemo : ∀ name, (m.lookup name).isSome = true → (m'.lookup name).isSome = true)
    (hShapes : shapes ⊆ shapes') : Covered g o fixed m' shapes' r := by
  induction h with
  | fixed hFixed hList => exact .fixed hFixed (List.Subset.trans hList hShapes)
  | shown hFree hOwn hSub => exact .shown hFree hOwn (List.Subset.trans hSub hShapes)
  | known hFree hHidden hKnown => exact .known hFree hHidden (hMemo _ hKnown)
  | transparent hFree hTransparent _ ih => exact .transparent hFree hTransparent ih

/-- If the bodies of all rules in the memo are covered, then whatever is covered is collected. -/
theorem Covered.mem_of_gives {shapes : List Shape} {r : Rule} {s : Shape}
    (hBodies : ∀ name body, (m.lookup name).isSome = true → fixed (.symbol name) = none →
      g.rules.get? name = some body → Covered g o fixed m shapes body)
    (h : Covered g o fixed m shapes r) (hGives : Gives g o fixed r s) : s ∈ shapes := by
  induction hGives with
  | fixed hFixed hs =>
    cases h with
    | fixed hFixed' hList =>
      rw [hFixed] at hFixed'
      cases hFixed'
      exact hList hs
    | shown hFree | known hFree | transparent hFree =>
      rw [hFree] at hFixed
      cases hFixed
  | shown hFree hOwn hs =>
    cases h with
    | fixed hFixed =>
      rw [hFree] at hFixed
      cases hFixed
    | shown _ hOwn' hShapes => exact hShapes (hOwn.unique hOwn' ▸ hs)
    | known _ hHidden =>
      rw [hOwn.eq_nil_of_hidden hHidden] at hs
      cases hs
    | transparent _ hTransparent =>
      rw [hOwn.isTransparent] at hTransparent
      cases hTransparent
  | inlined hFree hHidden hBody _ ih =>
    cases h with
    | fixed hFixed =>
      rw [hFree] at hFixed
      cases hFixed
    | shown _ hOwn => exact absurd (mem_opened_symbol_iff.mpr ⟨hHidden, hBody⟩) hOwn.not_mem_opened
    | known _ _ hKnown => exact ih (hBodies _ _ hKnown hFree hBody)
    | transparent _ hTransparent => cases hTransparent
  | member hFree hTransparent hc _ ih =>
    cases h with
    | fixed hFixed =>
      rw [hFree] at hFixed
      cases hFixed
    | shown _ hOwn =>
      rw [hOwn.isTransparent] at hTransparent
      cases hTransparent
    | known => cases hTransparent
    | transparent _ _ hMembers => exact ih (hMembers _ hc)

namespace Collects

theorem nil (hSound : m.Sound g o fixed keeps) : Collects g o fixed keeps m [] [] m where
  sound := hSound
  grows _ h := h
  gives _ h := by cases h
  covers _ h := by cases h
  remembered name body h hNew := by
    rw [hNew] at h
    cases h

theorem cons {r : Rule} {rest : List Rule} {own shapes : List Shape}
    (h : Collects g o fixed keeps m [r] own m₁) (h' : Collects g o fixed keeps m₁ rest shapes m') :
    Collects g o fixed keeps m (r :: rest) (own ++ shapes) m' where
  sound := h'.sound
  grows name hName := h'.grows name (h.grows name hName)
  gives s hs := by
    rcases List.mem_append.mp hs with hs | hs
    · obtain ⟨t, ht, hGives⟩ := h.gives s hs
      obtain rfl := List.mem_singleton.mp ht
      exact ⟨t, List.mem_cons_self, hGives⟩
    · obtain ⟨t, ht, hGives⟩ := h'.gives s hs
      exact ⟨t, List.mem_cons_of_mem _ ht, hGives⟩
  covers t ht := by
    rcases List.mem_cons.mp ht with rfl | ht
    · exact (h.covers t List.mem_cons_self).mono h'.grows (List.subset_append_left _ _)
    · exact (h'.covers t ht).mono (fun _ hName => hName) (List.subset_append_right _ _)
  remembered name body hName hNew hFree hBody := by
    cases hKnown : m₁.lookup name with
    | none =>
      have hCovered := h'.remembered name body hName hKnown hFree hBody
      exact hCovered.mono (fun _ hName => hName) (List.subset_append_right _ _)
    | some list =>
      have hCovered := h.remembered name body (Option.isSome_of_eq_some hKnown) hNew
        hFree hBody
      exact hCovered.mono h'.grows (List.subset_append_left _ _)

theorem shown {r : Rule} {own : List Shape} (hSound : m.Sound g o fixed keeps) (hFree : fixed r = none)
    (hOwn : Shows g o r own) : Collects g o fixed keeps m [r] own m where
  sound := hSound
  grows _ h := h
  gives s hs := ⟨r, List.mem_cons_self, .shown hFree hOwn hs⟩
  covers t ht := by
    obtain rfl := List.mem_singleton.mp ht
    exact .shown hFree hOwn (List.Subset.refl own)
  remembered name body h hNew := by
    rw [hNew] at h
    cases h

theorem known {name : String} {own : List Shape} (hSound : m.Sound g o fixed keeps)
    (hFree : fixed (.symbol name) = none) (hHidden : o.isHidden name = true)
    (hKnown : m.lookup name = some own) : Collects g o fixed keeps m [.symbol name] own m where
  sound := hSound
  grows _ h := h
  gives s hs := ⟨.symbol name, List.mem_cons_self, hSound.gives name own hKnown s hs⟩
  covers t ht := by
    obtain rfl := List.mem_singleton.mp ht
    exact .known hFree hHidden (Option.isSome_of_eq_some hKnown)
  remembered name body h hNew := by
    rw [hNew] at h
    cases h

theorem transparent {r : Rule} {own : List Shape} (hFree : fixed r = none)
    (hTransparent : r.isTransparent = true) (h : Collects g o fixed keeps m r.children own m') :
    Collects g o fixed keeps m [r] own m' where
  sound := h.sound
  grows := h.grows
  gives s hs := by
    obtain ⟨c, hc, hGives⟩ := h.gives s hs
    exact ⟨r, List.mem_cons_self, .member hFree hTransparent hc hGives⟩
  covers t ht := by
    obtain rfl := List.mem_singleton.mp ht
    exact .transparent hFree hTransparent h.covers
  remembered := h.remembered

theorem sound_open {name : String} {body : Rule} (hSteady : Steady g o fixed keeps)
    (hSound : m.Sound g o fixed keeps) (hFree : fixed (.symbol name) = none)
    (hBody : body ∈ opened g o (.symbol name)) : Memo.Sound g o fixed keeps ((name, []) :: m) where
  keeps := hSteady.remember m name body [] hFree hBody hSound.keeps
  gives other own hOwn s hs := by
    rw [Memo.lookup_cons] at hOwn
    split at hOwn
    · cases hOwn
      cases hs
    · exact hSound.gives other own hOwn s hs

theorem inlined {name : String} {body : Rule} {own : List Shape} (hSteady : Steady g o fixed keeps)
    (hFree : fixed (.symbol name) = none) (hHidden : o.isHidden name = true)
    (hBody : g.rules.get? name = some body)
    (h : Collects g o fixed keeps ((name, []) :: m) [body] own m₁) :
    Collects g o fixed keeps m [.symbol name] (firstSeen own) ((name, firstSeen own) :: m₁) := by
  have hGives : ∀ s ∈ firstSeen own, Gives g o fixed (.symbol name) s := by
    intro s hs
    obtain ⟨t, ht, hGives⟩ := h.gives s (mem_firstSeen_iff.mp hs)
    obtain rfl := List.mem_singleton.mp ht
    exact .inlined hFree hHidden hBody hGives
  have hGrows : ∀ other, (m₁.lookup other).isSome = true →
      (List.lookup other ((name, firstSeen own) :: m₁)).isSome = true :=
    fun _ => Memo.isSome_lookup_cons _
  have hShapes : own ⊆ firstSeen own := fun s hs => mem_firstSeen_iff.mpr hs
  refine ⟨⟨?_, ?_⟩, ?_, ?_, ?_, ?_⟩
  · exact hSteady.remember m₁ name body _ hFree (mem_opened_symbol_iff.mpr ⟨hHidden, hBody⟩) h.sound.keeps
  · intro other list hList s hs
    rw [Memo.lookup_cons] at hList
    split at hList
    · rename_i hOther
      cases hList
      exact hOther ▸ hGives s hs
    · exact h.sound.gives other list hList s hs
  · exact fun other hOther => hGrows other (h.grows other (Memo.isSome_lookup_cons _ hOther))
  · exact fun s hs => ⟨.symbol name, List.mem_cons_self, hGives s hs⟩
  · intro t ht
    obtain rfl := List.mem_singleton.mp ht
    exact .known hFree hHidden (Option.isSome_of_eq_some (Memo.lookup_cons_self _ _ _))
  · intro other otherBody hOther hNew hOtherFree hOtherBody
    by_cases hName : other = name
    · subst hName
      rw [hBody] at hOtherBody
      cases hOtherBody
      exact (h.covers body List.mem_cons_self).mono hGrows hShapes
    · rw [Memo.lookup_cons_of_ne _ _ hName] at hOther
      have hOtherNew : List.lookup other ((name, []) :: m) = none :=
        (Memo.lookup_cons_of_ne _ _ hName).trans hNew
      have hCovered := h.remembered other otherBody hOther hOtherNew hOtherFree hOtherBody
      exact hCovered.mono hGrows hShapes

theorem of_fixed {r : Rule} {own list : List Shape} (hSteady : Steady g o fixed keeps)
    (hSound : m.Sound g o fixed keeps) (hFixed : fixed r = some list) (hRun : Run g o m [r] own m') :
    Collects g o fixed keeps m [r] own m' := by
  obtain ⟨hKeeps, hSame⟩ := hSteady.run m m' r own list hFixed hSound.keeps hRun
  have hNew : ∀ name, (m'.lookup name).isSome = true → m.lookup name = none →
      (fixed (.symbol name)).isSome = true := by
    intro name hName hNone
    rcases hRun.known_or_meets hName with hKnown | ⟨t, ht, hMeets⟩
    · rw [hNone] at hKnown
      cases hKnown
    · obtain rfl := List.mem_singleton.mp ht
      exact hSteady.of_meets hMeets (Option.isSome_of_eq_some hFixed)
  refine ⟨⟨hKeeps, ?_⟩, fun name => hRun.isSome_lookup, ?_, ?_, ?_⟩
  · intro name entry hEntry s hs
    cases hName : fixed (.symbol name) with
    | some list =>
      exact .fixed hName ((hSteady.entry m' name entry list hKeeps hName hEntry s).mp hs)
    | none =>
      cases hOld : m.lookup name with
      | some old =>
        have hSame : some old = some entry := (hRun.lookup_eq_some hOld).symm.trans hEntry
        cases hSame
        exact hSound.gives name entry hOld s hs
      | none =>
        have hSome := hNew name (Option.isSome_of_eq_some hEntry) hOld
        rw [hName] at hSome
        cases hSome
  · exact fun s hs => ⟨r, List.mem_cons_self, .fixed hFixed ((hSame s).mp hs)⟩
  · intro t ht
    obtain rfl := List.mem_singleton.mp ht
    exact .fixed hFixed fun s hs => (hSame s).mpr hs
  · intro name body hName hNone hFree
    have hSome := hNew name hName hNone
    rw [hFree] at hSome
    cases hSome

theorem of_free {r : Rule} {own : List Shape} (hSteady : Steady g o fixed keeps)
    (hSound : m.Sound g o fixed keeps) (hRun : Run g o m [r] own m')
    (h : fixed r = none → Collects g o fixed keeps m [r] own m') :
    Collects g o fixed keeps m [r] own m' := by
  cases hFixed : fixed r with
  | some list => exact of_fixed hSteady hSound hFixed hRun
  | none => exact h hFixed

end Collects

namespace Run

theorem collects {rs : List Rule} {shapes : List Shape} (hSteady : Steady g o fixed keeps)
    (h : Run g o m rs shapes m') (hSingles : ∀ r ∈ rs, FixesSingles g o fixed r)
    (hSound : m.Sound g o fixed keeps) : Collects g o fixed keeps m rs shapes m' := by
  induction h with
  | nil => exact .nil hSound
  | @shown m _ r _ own _ hOwn _ ih =>
    have hHead : Collects g o fixed keeps m [r] own m := by
      apply Collects.of_free hSteady hSound (.of_append_nil (.shown hOwn (.nil _)))
      exact fun hFree => .shown hSound hFree hOwn
    exact hHead.cons (ih (List.forall_mem_cons.mp hSingles).2 hHead.sound)
  | @known m _ name _ own _ hHidden hKnown _ ih =>
    have hHead : Collects g o fixed keeps m [.symbol name] own m := by
      apply Collects.of_free hSteady hSound (.of_append_nil (.known hHidden hKnown (.nil _)))
      exact fun hFree => .known hSound hFree hHidden hKnown
    exact hHead.cons (ih (List.forall_mem_cons.mp hSingles).2 hHead.sound)
  | @inlined m m₁ _ name body _ own _ hHidden hNew hBody hOwn _ ihOwn ih =>
    obtain ⟨hSymbol, hRest⟩ := List.forall_mem_cons.mp hSingles
    have hOpened := mem_opened_symbol_iff.mpr ⟨hHidden, hBody⟩
    have hHead : Collects g o fixed keeps m [.symbol name] (firstSeen own)
        ((name, firstSeen own) :: m₁) := by
      apply Collects.of_free hSteady hSound (.of_append_nil (.inlined hHidden hNew hBody hOwn (.nil _)))
      intro hFree
      have hBodySingles := List.forall_mem_singleton.mpr (hSymbol.of_opened hOpened)
      exact .inlined hSteady hFree hHidden hBody
        (ihOwn hBodySingles (Collects.sound_open hSteady hSound hFree hOpened))
    exact hHead.cons (ih hRest hHead.sound)
  | @single m m₁ _ r _ own _ hSingle hOwn _ _ ih =>
    obtain ⟨hNode, hRest⟩ := List.forall_mem_cons.mp hSingles
    have hHead : Collects g o fixed keeps m [r] (own.take 1) m₁ := by
      apply Collects.of_free hSteady hSound (.of_append_nil (.single hSingle hOwn (.nil _)))
      intro hFree
      have hFixed := hNode r (Meets.refl r) hSingle
      rw [hFree] at hFixed
      cases hFixed
    exact hHead.cons (ih hRest hHead.sound)
  | @transparent m m₁ _ r _ own _ hTransparent hOwn _ ihOwn ih =>
    obtain ⟨hNode, hRest⟩ := List.forall_mem_cons.mp hSingles
    have hHead : Collects g o fixed keeps m [r] own m₁ := by
      apply Collects.of_free hSteady hSound (.of_append_nil (.transparent hTransparent hOwn (.nil _)))
      intro hFree
      have hMembers : ∀ c ∈ r.children, FixesSingles g o fixed c :=
        fun c hc => hNode.of_opened (mem_opened_of_mem_children hc)
      exact .transparent hFree hTransparent (ihOwn hMembers hSound)
    exact hHead.cons (ih hRest hHead.sound)

theorem mem_iff_gives {rs : List Rule} {shapes : List Shape} (hSteady : Steady g o fixed keeps)
    (h : Run g o [] rs shapes m') (hSingles : ∀ r ∈ rs, FixesSingles g o fixed r) (s : Shape) :
    s ∈ shapes ↔ ∃ r ∈ rs, Gives g o fixed r s := by
  have hEmpty : Memo.Sound g o fixed keeps [] :=
    ⟨hSteady.empty, fun _ _ h => (by cases h)⟩
  have hCollects := h.collects hSteady hSingles hEmpty
  constructor
  · exact hCollects.gives s
  · rintro ⟨r, hr, hGives⟩
    refine (hCollects.covers r hr).mem_of_gives ?_ hGives
    exact fun name body hName hFree hBody => hCollects.remembered name body hName rfl hFree hBody

end Run

end GrammarShapes
