import GrammarShapes.Proofs.Expansion.Collected
import GrammarShapes.Proofs.Expansion.Resolved

set_option autoImplicit false

/-! # Settled rules

What is remembered of a hidden rule depends on where the rule was met first: inside a rule that it refers
back to, it lacks what that rule gives. A rule settles another if what its expansion leaves for the other
is interchangeable with the other's own expansion, that is, has the same first shape and the same shapes.

From a memo that holds only own expansions, up to this, the expansion of a rule that settles all others
takes the same course as with nothing remembered, except that it passes over the rules that it knows. So a
node all of whose rules are settled has the same shapes whatever was expanded before it.
-/

namespace GrammarShapes

def Interchangeable (own own' : List Shape) : Prop :=
  own.head? = own'.head? ∧ ∀ s, s ∈ own ↔ s ∈ own'

theorem head?_firstSeen {α : Type} [DecidableEq α] (xs : List α) : (firstSeen xs).head? = xs.head? := by
  cases xs with
  | nil => rfl
  | cons x xs =>
    obtain ⟨rest, hRest⟩ := prefix_addNew [x] xs
    change (addNew [x] xs).head? = some x
    rw [← hRest]
    rfl

namespace Interchangeable

variable {own own' own'' more more' : List Shape}

theorem refl (own : List Shape) : Interchangeable own own :=
  ⟨rfl, fun _ => Iff.rfl⟩

theorem symm (h : Interchangeable own own') : Interchangeable own' own :=
  ⟨h.1.symm, fun s => (h.2 s).symm⟩

theorem trans (h : Interchangeable own own') (h' : Interchangeable own' own'') :
    Interchangeable own own'' :=
  ⟨h.1.trans h'.1, fun s => (h.2 s).trans (h'.2 s)⟩

theorem append (h : Interchangeable own own') (hMore : Interchangeable more more') :
    Interchangeable (own ++ more) (own' ++ more') := by
  constructor
  · rw [List.head?_append, List.head?_append, h.1, hMore.1]
  · intro s
    rw [List.mem_append, List.mem_append, h.2 s, hMore.2 s]

theorem take_one (h : Interchangeable own own') : Interchangeable (own.take 1) (own'.take 1) := by
  rw [List.take_one, List.take_one, h.1]
  exact refl _

theorem firstSeen (h : Interchangeable own own') : Interchangeable (firstSeen own) (firstSeen own') := by
  constructor
  · rw [head?_firstSeen, head?_firstSeen, h.1]
  · intro s
    rw [mem_firstSeen_iff, mem_firstSeen_iff, h.2 s]

end Interchangeable

section Statements

variable (g : Grammar) (o : Options)

def Yields (r : Rule) (shapes : List Shape) : Prop :=
  ∃ room e', expandWithin g o room r {} = (.ok shapes, e')

/-- Whether what the expansion of `name` leaves for `other` is interchangeable with what `other` yields. -/
def Settles (name other : String) : Prop :=
  ∀ room shapes e' own list, expandWithin g o room (.symbol name) {} = (.ok shapes, e') →
    e'.memo.lookup other = some own → Yields g o (.symbol other) list → Interchangeable own list

/-- Whether every rule that a node can come to settles all others. -/
def Settled (r : Rule) : Prop :=
  ∀ name other, Meets g o r (.symbol name) → Settles g o name other

structure Firm (r : Rule) : Prop where
  resolved : Resolved g o r
  settled : Settled g o r

/-- Whether the entries of firm rules are what these yield and the rules within them are known. -/
structure Memo.Accurate (m : Memo) : Prop where
  backed : m.Backed g o
  spans : ∀ name body, (m.lookup name).isSome = true → Firm g o (.symbol name) →
    g.rules.get? name = some body → Spanned g o m body
  yields : ∀ name own list, m.lookup name = some own → Firm g o (.symbol name) →
    Yields g o (.symbol name) list → Interchangeable own list

def Memo.Agrees (m known : Memo) : Prop :=
  ∀ name own own', m.lookup name = some own → known.lookup name = some own' →
    Firm g o (.symbol name) → Interchangeable own own'

/-- Two memos of runs of one row, the second of which began with `known` and the first with nothing:
rules that are not known have interchangeable entries in both or in neither. -/
structure Corresponds (known m₁ m₂ : Memo) : Prop where
  old : ∀ name own, known.lookup name = some own → m₂.lookup name = some own
  new : ∀ name, known.lookup name = none → Firm g o (.symbol name) →
    Option.Rel Interchangeable (m₁.lookup name) (m₂.lookup name)

/-- What is to be shown of a run of a firm row from `m₁` that leaves what agrees with `known`: every run of
the row from a corresponding memo gives interchangeable shapes. -/
def Tracked (known m₁ : Memo) (rs : List Rule) (shapes₁ : List Shape) (m₁' : Memo) : Prop :=
  ∀ ⦃m₂ m₂' : Memo⦄ ⦃shapes₂ : List Shape⦄, Run g o m₂ rs shapes₂ m₂' → (∀ r ∈ rs, Firm g o r) →
    m₁.Backed g o → m₂.Backed g o → Corresponds g o known m₁ m₂ → m₁'.Agrees g o known →
      Interchangeable shapes₁ shapes₂ ∧ Corresponds g o known m₁' m₂'

end Statements

variable {g : Grammar} {o : Options} {m m₁ m₂ m' : Memo}

theorem Yields.unique {r : Rule} {shapes shapes' : List Shape} (h : Yields g o r shapes)
    (h' : Yields g o r shapes') : shapes = shapes' := by
  obtain ⟨room, e, hRoom⟩ := h
  obtain ⟨room', e', hRoom'⟩ := h'
  exact (expandWithin_unique hRoom hRoom').1

theorem settles_of_room {name other : String} (room : Nat)
    (h : ∀ body otherBody, body ∈ opened g o (.symbol name) → otherBody ∈ opened g o (.symbol other) →
      ∃ shapes e₁ list e₂, expandWithin g o room (.symbol name) {} = (.ok shapes, e₁) ∧
        expandWithin g o room (.symbol other) {} = (.ok list, e₂) ∧
        ∀ own, e₁.memo.lookup other = some own → Interchangeable own list) : Settles g o name other := by
  intro room' shapes e' own list hRoom' hOwn hYields
  have hRun := Run.of_expandWithin hRoom'
  have hSome : (e'.memo.lookup other).isSome = true := Option.isSome_of_eq_some hOwn
  obtain ⟨body, hBody⟩ := hRun.exists_opened hSome
  obtain ⟨otherBody, hOtherBody⟩ := hRun.backed (fun _ hNone => by cases hNone) other hSome
  obtain ⟨shapes₁, e₁, list₁, e₂, hName, hOther, hEntry⟩ := h body otherBody hBody hOtherBody
  obtain ⟨-, rfl⟩ := expandWithin_unique hName hRoom'
  obtain rfl := hYields.unique ⟨room, e₂, hOther⟩
  exact hEntry own hOwn

theorem Firm.of_meets {r t : Rule} (h : Firm g o r) (hMeets : Meets g o r t) : Firm g o t where
  resolved := h.resolved.of_meets hMeets
  settled name other hName := h.settled name other (hMeets.trans hName)

theorem Firm.of_mem_children {r c : Rule} (h : Firm g o r) (hc : c ∈ r.children) : Firm g o c :=
  h.of_meets (Meets.of_mem_children hc)

theorem Memo.Accurate.known_of_meets {name other : String} {body : Rule} (h : m.Accurate g o)
    (hName : (m.lookup name).isSome = true) (hFirm : Firm g o (.symbol name))
    (hMeets : Meets g o (.symbol name) (.symbol other)) (hBody : body ∈ opened g o (.symbol other)) :
    (m.lookup other).isSome = true := by
  have hHead : Spanned g o m (.symbol name) :=
    .symbol (hFirm.resolved name (Meets.refl _)) fun _ _ => hName
  have hSpanned : Spanned g o m (.symbol other) := by
    apply hHead.of_meets _ hMeets
    exact fun inner innerBody hInner hBefore => h.spans inner innerBody hInner (hFirm.of_meets hBefore)
  cases hSpanned with
  | symbol _ hKnown => exact hKnown body hBody
  | node hNode => cases hNode

theorem Run.of_shows {r : Rule} {own own' : List Shape} (h : Run g o m [r] own m')
    (hShows : Shows g o r own') (hMemo : m.Backed g o) : own = own' ∧ m' = m := by
  cases h with
  | shown hOwn hRest =>
    cases hRest
    rw [List.append_nil]
    exact ⟨hOwn.unique hShows, rfl⟩
  | known _ hKnown =>
    obtain ⟨body, hBody⟩ := hMemo _ (Option.isSome_of_eq_some hKnown)
    exact absurd hBody hShows.not_mem_opened
  | inlined hHidden _ hBody =>
    exact absurd (mem_opened_symbol_iff.mpr ⟨hHidden, hBody⟩) hShows.not_mem_opened
  | single hSingle =>
    rw [hShows.isSingleValued] at hSingle
    cases hSingle
  | transparent hTransparent =>
    rw [hShows.isTransparent] at hTransparent
    cases hTransparent

theorem Memo.Agrees.of_run {known : Memo} {rs : List Rule} {shapes : List Shape}
    (h : m'.Agrees g o known) (hRun : Run g o m rs shapes m') : m.Agrees g o known :=
  fun name own own' hOwn => h name own own' (hRun.lookup_eq_some hOwn)

theorem Memo.Agrees.of_cons {known : Memo} {name : String} {own : List Shape}
    (h : Memo.Agrees g o ((name, own) :: m) known) (hFree : known.lookup name = none) :
    m.Agrees g o known := by
  intro other entry own' hEntry hOld
  have hne : other ≠ name := by
    rintro rfl
    rw [hFree] at hOld
    cases hOld
  exact h other entry own' ((Memo.lookup_cons_of_ne _ _ hne).trans hEntry) hOld

namespace Corresponds

variable {known m₁' : Memo} {name : String} {own₁ own₂ : List Shape}

theorem known_or_rel (h : Corresponds g o known m₁ m₂) (hFirm : Firm g o (.symbol name)) :
    (∃ own, known.lookup name = some own ∧ m₂.lookup name = some own) ∨
      Option.Rel Interchangeable (m₁.lookup name) (m₂.lookup name) := by
  cases hKnown : known.lookup name with
  | some own => exact Or.inl ⟨own, rfl, h.old name own hKnown⟩
  | none => exact Or.inr (h.new name hKnown hFirm)

theorem interchangeable (h : Corresponds g o known m₁ m₂) (hFirm : Firm g o (.symbol name))
    (hAgrees : m₁.Agrees g o known) (hOwn₁ : m₁.lookup name = some own₁)
    (hOwn₂ : m₂.lookup name = some own₂) : Interchangeable own₁ own₂ := by
  rcases h.known_or_rel hFirm with ⟨own, hKnown, hSame⟩ | hRel
  · rw [hOwn₂] at hSame
    cases hSame
    exact hAgrees name own₁ own₂ hOwn₁ hKnown hFirm
  · rw [hOwn₁, hOwn₂] at hRel
    cases hRel with
    | some hOwn => exact hOwn

theorem isSome_of_first (h : Corresponds g o known m₁ m₂) (hFirm : Firm g o (.symbol name))
    (hOwn₁ : m₁.lookup name = some own₁) : m₂.lookup name ≠ none := by
  intro hNone
  rcases h.known_or_rel hFirm with ⟨own, -, hSame⟩ | hRel
  · rw [hNone] at hSame
    cases hSame
  · rw [hOwn₁, hNone] at hRel
    cases hRel

theorem known_of_second (h : Corresponds g o known m₁ m₂) (hFirm : Firm g o (.symbol name))
    (hNew₁ : m₁.lookup name = none) (hOwn₂ : m₂.lookup name = some own₂) :
    known.lookup name = some own₂ := by
  rcases h.known_or_rel hFirm with ⟨own, hKnown, hSame⟩ | hRel
  · rw [hOwn₂] at hSame
    rw [hKnown, hSame]
  · rw [hNew₁, hOwn₂] at hRel
    cases hRel

theorem lookup_eq_none_of_second (h : Corresponds g o known m₁ m₂) (hNew₂ : m₂.lookup name = none) :
    known.lookup name = none := by
  cases hKnown : known.lookup name with
  | none => rfl
  | some own =>
    rw [h.old name own hKnown] at hNew₂
    cases hNew₂

theorem cons (h : Corresponds g o known m₁ m₂) (hName : known.lookup name = none)
    (hOwn : Interchangeable own₁ own₂) :
    Corresponds g o known ((name, own₁) :: m₁) ((name, own₂) :: m₂) where
  old other own hOther := by
    rw [Memo.lookup_cons]
    split
    · rename_i hSame
      rw [hSame, hName] at hOther
      cases hOther
    · exact h.old other own hOther
  new other hOther hFirm := by
    rw [Memo.lookup_cons, Memo.lookup_cons]
    split
    · exact .some hOwn
    · exact h.new other hOther hFirm

/-- The first run goes through a known rule, and with it through known rules only; the second passes it
over. -/
theorem of_known {body : Rule} {own : List Shape} (h : Corresponds g o known m₁ m₂)
    (hMemo : known.Accurate g o) (hName : (known.lookup name).isSome = true)
    (hFirm : Firm g o (.symbol name)) (hBody : body ∈ opened g o (.symbol name))
    (hBacked : Memo.Backed g o ((name, []) :: m₁))
    (hRun : Run g o ((name, []) :: m₁) [body] own m₁') :
    Corresponds g o known ((name, own₁) :: m₁') m₂ where
  old := h.old
  new other hOther hOtherFirm := by
    have hne : other ≠ name := by
      rintro rfl
      rw [hOther] at hName
      cases hName
    have hBefore : List.lookup other ((name, []) :: m₁) = m₁.lookup other :=
      Memo.lookup_cons_of_ne _ _ hne
    rw [Memo.lookup_cons_of_ne _ _ hne]
    have hSame : m₁'.lookup other = m₁.lookup other := by
      cases hEntry : m₁.lookup other with
      | some entry => exact hRun.lookup_eq_some (hBefore.trans hEntry)
      | none =>
        rw [← Option.not_isSome_iff_eq_none]
        intro hSome
        rcases hRun.known_or_meets hSome with hOld | ⟨t, ht, hMeets⟩
        · rw [hBefore, hEntry] at hOld
          cases hOld
        · obtain rfl := List.mem_singleton.mp ht
          obtain ⟨otherBody, hOtherBody⟩ := hRun.backed hBacked other hSome
          have hKnown := hMemo.known_of_meets hName hFirm
            ((Meets.of_opened hBody).trans hMeets) hOtherBody
          rw [hOther] at hKnown
          cases hKnown
    rw [hSame]
    exact h.new other hOther hOtherFirm

end Corresponds

namespace Tracked

variable {known m₁b m₁' : Memo} {r : Rule} {rest : List Rule} {name : String} {body : Rule}
  {own more : List Shape}

theorem cons (hHead : Tracked g o known m₁ [r] own m₁b) (hBacked : m₁.Backed g o → m₁b.Backed g o)
    (hRest : Tracked g o known m₁b rest more m₁') (hRun : Run g o m₁b rest more m₁') :
    Tracked g o known m₁ (r :: rest) (own ++ more) m₁' := by
  intro m₂ m₂' shapes₂ h₂ hFirm hBacked₁ hBacked₂ hMemos hAgrees
  obtain ⟨own₂, m₃, more₂, hHead₂, hRest₂, rfl⟩ := h₂.uncons
  obtain ⟨hNode, hRestFirm⟩ := List.forall_mem_cons.mp hFirm
  obtain ⟨hOwn, hMemos₁⟩ := hHead hHead₂ (List.forall_mem_singleton.mpr hNode) hBacked₁ hBacked₂ hMemos
    (hAgrees.of_run hRun)
  obtain ⟨hMore, hMemos'⟩ := hRest hRest₂ hRestFirm (hBacked hBacked₁) (hHead₂.backed hBacked₂) hMemos₁
    hAgrees
  exact ⟨hOwn.append hMore, hMemos'⟩

theorem shown (hOwn : Shows g o r own) : Tracked g o known m₁ [r] own m₁ := by
  intro m₂ m₂' shapes₂ h₂ _ _ hBacked₂ hMemos _
  obtain ⟨rfl, rfl⟩ := h₂.of_shows hOwn hBacked₂
  exact ⟨.refl _, hMemos⟩

theorem remembered (hHidden : o.isHidden name = true) (hOwn : m₁.lookup name = some own) :
    Tracked g o known m₁ [.symbol name] own m₁ := by
  intro m₂ m₂' shapes₂ h₂ hFirm hBacked₁ _ hMemos hAgrees
  have hName := List.forall_mem_singleton.mp hFirm
  obtain ⟨body, hOpened⟩ := hBacked₁ name (Option.isSome_of_eq_some hOwn)
  rcases h₂.of_body hHidden (mem_opened_symbol_iff.mp hOpened).2 with ⟨hOwn₂, rfl⟩ | ⟨hNew₂, -⟩
  · exact ⟨hMemos.interchangeable hName hAgrees hOwn hOwn₂, hMemos⟩
  · exact absurd hNew₂ (hMemos.isSome_of_first hName hOwn)

/-- The first run completes a rule. The second knows it from the beginning, or completes it as well. -/
theorem inlined (hKnown : known.Accurate g o) (hOpened : body ∈ opened g o (.symbol name))
    (hNew : m₁.lookup name = none) (hRun : Run g o ((name, []) :: m₁) [body] own m₁b)
    (hBody : Tracked g o known ((name, []) :: m₁) [body] own m₁b) :
    Tracked g o known m₁ [.symbol name] (firstSeen own) ((name, firstSeen own) :: m₁b) := by
  intro m₂ m₂' shapes₂ h₂ hFirm hBacked₁ hBacked₂ hMemos hAgrees
  have hName := List.forall_mem_singleton.mp hFirm
  have hInner : Memo.Backed g o ((name, []) :: m₁) := hBacked₁.cons hOpened
  obtain ⟨hHidden, hRule⟩ := mem_opened_symbol_iff.mp hOpened
  rcases h₂.of_body hHidden hRule with ⟨hOwn₂, rfl⟩ | ⟨hNew₂, all₂, m₂b, hAll₂, rfl, rfl⟩
  · have hOld := hMemos.known_of_second hName hNew hOwn₂
    exact ⟨hAgrees name _ _ (Memo.lookup_cons_self _ _ _) hOld hName,
      hMemos.of_known hKnown (Option.isSome_of_eq_some hOld) hName hOpened hInner hRun⟩
  · have hFree := hMemos.lookup_eq_none_of_second hNew₂
    have hBodyFirm := List.forall_mem_singleton.mpr (hName.of_meets (Meets.of_opened hOpened))
    obtain ⟨hAll, hMemos₁⟩ := hBody hAll₂ hBodyFirm hInner (hBacked₂.cons hOpened)
      (hMemos.cons hFree (.refl [])) (hAgrees.of_cons hFree)
    exact ⟨hAll.firstSeen, hMemos₁.cons hFree hAll.firstSeen⟩

theorem single (hSingle : r.isSingleValued = true) (hOwn : Tracked g o known m₁ r.children own m₁b) :
    Tracked g o known m₁ [r] (own.take 1) m₁b := by
  intro m₂ m₂' shapes₂ h₂ hFirm hBacked₁ hBacked₂ hMemos hAgrees
  have hNode := List.forall_mem_singleton.mp hFirm
  obtain ⟨all₂, hOwn₂, rfl⟩ := h₂.of_isSingleValued hSingle
  obtain ⟨hAll, hMemos₁⟩ := hOwn hOwn₂ (fun _ => hNode.of_mem_children) hBacked₁ hBacked₂ hMemos hAgrees
  exact ⟨hAll.take_one, hMemos₁⟩

theorem transparent (hTransparent : r.isTransparent = true)
    (hOwn : Tracked g o known m₁ r.children own m₁b) : Tracked g o known m₁ [r] own m₁b := by
  intro m₂ m₂' shapes₂ h₂ hFirm hBacked₁ hBacked₂ hMemos hAgrees
  have hNode := List.forall_mem_singleton.mp hFirm
  exact hOwn (h₂.of_isTransparent hTransparent) (fun _ => hNode.of_mem_children) hBacked₁ hBacked₂ hMemos
    hAgrees

end Tracked

theorem Run.tracked {known m₁' : Memo} {rs : List Rule} {shapes₁ : List Shape} (hKnown : known.Accurate g o)
    (h : Run g o m₁ rs shapes₁ m₁') : Tracked g o known m₁ rs shapes₁ m₁' := by
  induction h with
  | nil =>
    intro m₂ m₂' shapes₂ h₂ _ _ _ hMemos _
    cases h₂
    exact ⟨.refl _, hMemos⟩
  | shown hOwn hRest ih => exact (Tracked.shown hOwn).cons id ih hRest
  | known hHidden hOwn hRest ih => exact (Tracked.remembered hHidden hOwn).cons id ih hRest
  | inlined hHidden hNew hBody hOwn hRest ihOwn ih =>
    have hOpened := mem_opened_symbol_iff.mpr ⟨hHidden, hBody⟩
    have hHead := Tracked.inlined hKnown hOpened hNew hOwn ihOwn
    exact hHead.cons (fun hBacked => (hOwn.backed (hBacked.cons hOpened)).cons hOpened) ih hRest
  | single hSingle hOwn hRest ihOwn ih => exact (Tracked.single hSingle ihOwn).cons hOwn.backed ih hRest
  | transparent hTransparent hOwn hRest ihOwn ih =>
    exact (Tracked.transparent hTransparent ihOwn).cons hOwn.backed ih hRest

/-- Of two runs of one firm row, one that began with nothing and one that began with `known`, the shapes
are interchangeable, provided that what the first leaves agrees with `known`. -/
theorem Run.corresponds {known m₁' m₂' : Memo} {rs : List Rule} {shapes₁ shapes₂ : List Shape}
    (hKnown : known.Accurate g o) (h₁ : Run g o m₁ rs shapes₁ m₁') (h₂ : Run g o m₂ rs shapes₂ m₂')
    (hFirm : ∀ r ∈ rs, Firm g o r) (hBacked₁ : m₁.Backed g o) (hBacked₂ : m₂.Backed g o)
    (hMemos : Corresponds g o known m₁ m₂) (hAgrees : m₁'.Agrees g o known) :
    Interchangeable shapes₁ shapes₂ ∧ Corresponds g o known m₁' m₂' :=
  h₁.tracked hKnown h₂ hFirm hBacked₁ hBacked₂ hMemos hAgrees

theorem accurate_nil : Memo.Accurate g o [] where
  backed _ h := by cases h
  spans _ _ h := by cases h
  yields _ _ _ h := by cases h

theorem corresponds_nil (m : Memo) : Corresponds g o m [] m where
  old _ _ h := h
  new name hName _ := by
    rw [hName]
    exact .none

theorem Firm.exists_yields {r : Rule} (h : Firm g o r) : ∃ shapes, Yields g o r shapes := by
  obtain ⟨room, shapes, e', hRoom⟩ := h.resolved.exists_room
  exact ⟨shapes, room, e', hRoom⟩

namespace Memo.Accurate

theorem agrees {known : Memo} (h : known.Accurate g o)
    (hYields : ∀ name own list, m.lookup name = some own → Firm g o (.symbol name) →
      Yields g o (.symbol name) list → Interchangeable own list) : m.Agrees g o known := by
  intro name own own' hOwn hOwn' hFirm
  obtain ⟨list, hList⟩ := hFirm.exists_yields
  have hOwnList := hYields name own list hOwn hFirm hList
  exact hOwnList.trans (h.yields name own' list hOwn' hFirm hList).symm

theorem remember {name : String} {body : Rule} (h : m.Accurate g o) (own : List Shape)
    (hFree : ¬ Firm g o (.symbol name)) (hBody : body ∈ opened g o (.symbol name)) :
    Memo.Accurate g o ((name, own) :: m) := by
  have hne : ∀ other, Firm g o (.symbol other) → other ≠ name := by
    rintro other hFirm rfl
    exact hFree hFirm
  refine ⟨h.backed.cons hBody, ?_, ?_⟩
  · intro other otherBody hOther hFirm hOtherBody
    rw [Memo.lookup_cons_of_ne _ _ (hne other hFirm)] at hOther
    exact (h.spans other otherBody hOther hFirm hOtherBody).mono fun _ => Memo.isSome_lookup_cons _
  · intro other entry list hEntry hFirm hYields
    rw [Memo.lookup_cons_of_ne _ _ (hne other hFirm)] at hEntry
    exact h.yields other entry list hEntry hFirm hYields

theorem of_symbol {name : String} {own : List Shape} (h : m.Accurate g o)
    (hFirm : Firm g o (.symbol name)) (hRun : Run g o m [.symbol name] own m') :
    m'.Accurate g o := by
  obtain ⟨room, list, e', hFresh⟩ := hFirm.resolved.exists_room
  have hSettles : ∀ other entry otherList, e'.memo.lookup other = some entry →
      Yields g o (.symbol other) otherList → Interchangeable entry otherList :=
    fun other entry otherList hEntry => hFirm.settled name other (Meets.refl _) room list e' entry
      otherList hFresh hEntry
  have hAgrees : Memo.Agrees g o e'.memo m :=
    h.agrees fun other entry otherList hEntry _ => hSettles other entry otherList hEntry
  obtain ⟨-, hMemos⟩ := (Run.of_expandWithin hFresh).corresponds h hRun
    (List.forall_mem_singleton.mpr hFirm) accurate_nil.backed h.backed (corresponds_nil m) hAgrees
  refine ⟨hRun.backed h.backed, ?_, ?_⟩
  · intro other body hOther hOtherFirm hBody
    cases hOld : m.lookup other with
    | some old =>
      have hSpanned := h.spans other body (Option.isSome_of_eq_some hOld) hOtherFirm hBody
      exact hSpanned.mono fun _ => hRun.isSome_lookup
    | none => exact (hRun.spans h.backed).added other body hOther hOld hBody
  · intro other entry otherList hEntry hOtherFirm hYields
    cases hOld : m.lookup other with
    | some old =>
      have hSame : some old = some entry := (hRun.lookup_eq_some hOld).symm.trans hEntry
      cases hSame
      exact h.yields other entry otherList hOld hOtherFirm hYields
    | none =>
      have hRel := hMemos.new other hOld hOtherFirm
      rw [hEntry] at hRel
      cases hFirst : e'.memo.lookup other with
      | none =>
        rw [hFirst] at hRel
        cases hRel
      | some first =>
        rw [hFirst] at hRel
        cases hRel with
        | some hSame => exact hSame.symm.trans (hSettles other first otherList hFirst hYields)

theorem of_run {rs : List Rule} {shapes : List Shape} (h : m.Accurate g o)
    (hRow : ∀ r ∈ rs, ∀ name, Meets g o r (.symbol name) →
      (m.lookup name).isSome = true ∨ Firm g o (.symbol name))
    (hRun : Run g o m rs shapes m') : m'.Accurate g o := by
  induction hRun with
  | nil => exact h
  | shown _ _ ih | known _ _ _ ih => exact ih h (List.forall_mem_cons.mp hRow).2
  | single _ hOwn _ ihOwn ih | transparent _ hOwn _ ihOwn ih =>
    obtain ⟨hNode, hRest⟩ := List.forall_mem_cons.mp hRow
    have hAccurate := ihOwn h fun c hc name hMeets =>
      hNode name ((Meets.of_mem_children hc).trans hMeets)
    exact ih hAccurate fun t ht name hMeets => (hRest t ht name hMeets).imp_left hOwn.isSome_lookup
  | @inlined m m₁ _ name _ _ _ _ hHidden hNew hBody hOwn _ _ ih =>
    obtain ⟨hNode, hRest⟩ := List.forall_mem_cons.mp hRow
    have hHead := Run.inlined hHidden hNew hBody hOwn (.nil _)
    have hFirm : Firm g o (.symbol name) := by
      rcases hNode name (Meets.refl _) with hKnown | hFirm
      · rw [hNew] at hKnown
        cases hKnown
      · exact hFirm
    exact ih (h.of_symbol hFirm hHead) fun t ht other hMeets =>
      (hRest t ht other hMeets).imp_left hHead.isSome_lookup

theorem interchangeable {r : Rule} {own list : List Shape} (h : m.Accurate g o) (hFirm : Firm g o r)
    (hRun : Run g o m [r] own m') (hYields : Yields g o r list) : Interchangeable own list := by
  obtain ⟨room, e', hFresh⟩ := hYields
  have hFreshRun := Run.of_expandWithin hFresh
  have hFirmRow : ∀ t ∈ [r], Firm g o t := List.forall_mem_singleton.mpr hFirm
  have hAccurate : Memo.Accurate g o e'.memo := accurate_nil.of_run
    (fun t ht name hMeets => Or.inr ((hFirmRow t ht).of_meets hMeets)) hFreshRun
  obtain ⟨hSame, -⟩ := hFreshRun.corresponds h hRun hFirmRow accurate_nil.backed h.backed
    (corresponds_nil m) (h.agrees hAccurate.yields)
  exact hSame.symm

end Memo.Accurate

section Classical

open Classical

variable (g o) in
noncomputable def firmShapes (r : Rule) : Option (List Shape) :=
  if h : ∃ shapes, Firm g o r ∧ Yields g o r shapes then some h.choose else none

theorem firmShapes_eq_some {r : Rule} {list : List Shape} (h : firmShapes g o r = some list) :
    Firm g o r ∧ Yields g o r list := by
  unfold firmShapes at h
  split at h
  · rename_i hExists
    cases h
    exact hExists.choose_spec
  · cases h

theorem isSome_firmShapes_iff {r : Rule} : (firmShapes g o r).isSome = true ↔ Firm g o r := by
  constructor
  · intro h
    obtain ⟨list, hList⟩ := Option.isSome_iff_exists.mp h
    exact (firmShapes_eq_some hList).1
  · intro hFirm
    obtain ⟨list, hYields⟩ := hFirm.exists_yields
    rw [firmShapes, dif_pos ⟨list, hFirm, hYields⟩]
    rfl

end Classical

theorem steady_firmShapes : Steady g o (firmShapes g o) (Memo.Accurate g o) where
  empty := accurate_nil
  fixed_of_opened r t hr ht := by
    rw [isSome_firmShapes_iff] at hr ⊢
    exact hr.of_meets (Meets.of_opened ht)
  remember m name body own hFree hBody h := by
    refine h.remember own (fun hFirm => ?_) hBody
    rw [← isSome_firmShapes_iff, hFree] at hFirm
    cases hFirm
  entry m name own list h hFixed hOwn := by
    obtain ⟨hFirm, hYields⟩ := firmShapes_eq_some hFixed
    exact (h.yields name own list hOwn hFirm hYields).2
  run m m' r own list hFixed h hRun := by
    obtain ⟨hFirm, hYields⟩ := firmShapes_eq_some hFixed
    refine ⟨h.of_run (fun t ht name hMeets => Or.inr ?_) hRun, ?_⟩
    · exact hFirm.of_meets (List.mem_singleton.mp ht ▸ hMeets)
    · exact (h.interchangeable hFirm hRun hYields).2

end GrammarShapes
