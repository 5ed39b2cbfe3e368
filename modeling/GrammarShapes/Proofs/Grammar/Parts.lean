import GrammarShapes.Proofs.Grammar.Fields

set_option autoImplicit false

/-! # The parts of grammar documents

A document gives the parts of a grammar by name, in an object, or by place, in a list. Either way each part
is read from what the document holds for it, and the rest of the document is only passed over.
-/

namespace GrammarShapes

open Json (Error Draft Fault FilledOnce)

namespace Grammar

inductive Part where
  | name
  | rules
  | extras
  | externals
deriving DecidableEq

namespace Part

def key : Part → String
  | .name => "name"
  | .rules => "rules"
  | .extras => "extras"
  | .externals => "externals"

def place : Part → Nat
  | .name => 0
  | .rules => 1
  | .extras => 2
  | .externals => 3

abbrev Value : Part → Type
  | .name => Option String
  | .rules => Directory Rule
  | .extras => List Rule
  | .externals => List Rule

def readDraft : (p : Part) → Draft → Except Error p.Value
  | .name => readName
  | .rules => readRules
  | .extras => readRuleList
  | .externals => readRuleList

def draftsIn (p : Part) : Draft → List Draft
  | .object members _ => valuesAt (.ok p.key) members
  | .array items _ => (items[p.place]?).toList
  | _ => []

def ofKey? (key : String) : Option Part :=
  if key = "name" then some .name
  else if key = "rules" then some .rules
  else if key = "extras" then some .extras
  else if key = "externals" then some .externals
  else none

theorem ofKey?_eq_some_iff {key : String} {p : Part} : ofKey? key = some p ↔ key = p.key := by
  constructor
  · intro h
    unfold ofKey? at h
    split at h
    · cases h
      assumption
    split at h
    · cases h
      assumption
    split at h
    · cases h
      assumption
    split at h
    · cases h
      assumption
    · cases h
  · rintro rfl
    cases p <;> rfl

def named? : Except Fault String → Option Part
  | .ok key => ofKey? key
  | .error _ => none

theorem named?_eq_some_iff {name : Except Fault String} {p : Part} :
    named? name = some p ↔ name = .ok p.key := by
  cases name with
  | error f => exact ⟨nofun, nofun⟩
  | ok key => rw [named?, ofKey?_eq_some_iff, Except.ok.injEq]

end Part

namespace Fields

def get (fs : Fields) : (p : Part) → Option p.Value
  | .name => fs.name
  | .rules => fs.rules
  | .extras => fs.extras
  | .externals => fs.externals

def set (fs : Fields) : (p : Part) → p.Value → Fields
  | .name, x => { fs with name := some x }
  | .rules, x => { fs with rules := some x }
  | .extras, x => { fs with extras := some x }
  | .externals, x => { fs with externals := some x }

def slots : Json.Slots Part Part.Value Fields where
  get := get
  set := set
  get_set_self _ p _ := by cases p <;> rfl
  get_set_of_ne _ p q _ h := by cases p <;> cases q <;> first | rfl | exact absurd rfl h
  ext_get fs fs' h := by
    cases fs
    cases fs'
    cases h .name
    cases h .rules
    cases h .extras
    cases h .externals
    rfl

theorem get_empty (p : Part) : get {} p = none := by
  cases p <;> rfl

end Fields

theorem once_bind_eq_ok_iff {α σ : Type} {field : String} {old : Option α} {x : Except Error α}
    {put : Option α → σ} {s : σ} :
    (Json.once field old x >>= fun new => Except.ok (put new)) = .ok s ↔
      old = none ∧ ∃ a, x = .ok a ∧ s = put (some a) := by
  constructor
  · intro h
    obtain ⟨new, hOnce, hSame⟩ := bind_eq_ok_iff.mp h
    obtain ⟨hOld, a, hRead, rfl⟩ := Json.once_eq_ok_iff.mp hOnce
    exact ⟨hOld, a, hRead, (Except.ok.inj hSame).symm⟩
  · rintro ⟨hOld, a, hRead, rfl⟩
    exact bind_eq_ok_iff.mpr ⟨some a, Json.once_eq_ok_iff.mpr ⟨hOld, a, hRead, rfl⟩, rfl⟩

theorem readMember_key_eq_ok_iff {fs fs' : Fields} (p : Part) {d : Draft} :
    readMember fs p.key d = .ok fs' ↔ fs.get p = none ∧ ∃ x, p.readDraft d = .ok x ∧ fs' = fs.set p x := by
  unfold readMember
  cases p with
  | name =>
    rw [if_pos (show Part.name.key = "name" from rfl)]
    exact once_bind_eq_ok_iff
  | rules =>
    rw [if_neg (by decide), if_pos (show Part.rules.key = "rules" from rfl)]
    exact once_bind_eq_ok_iff
  | extras =>
    rw [if_neg (by decide), if_neg (by decide), if_pos (show Part.extras.key = "extras" from rfl)]
    exact once_bind_eq_ok_iff
  | externals =>
    rw [if_neg (by decide), if_neg (by decide), if_neg (by decide),
      if_pos (show Part.externals.key = "externals" from rfl)]
    exact once_bind_eq_ok_iff

theorem readMember_of_none {fs : Fields} {key : String} {d : Draft} (h : Part.ofKey? key = none) :
    readMember fs key d = (d.pass >>= fun _ => .ok fs) := by
  have hKey : ∀ p : Part, ¬ key = p.key := by
    intro p hSame
    rw [Part.ofKey?_eq_some_iff.mpr hSame] at h
    cases h
  have hName : ¬ key = "name" := hKey .name
  have hRules : ¬ key = "rules" := hKey .rules
  have hExtras : ¬ key = "extras" := hKey .extras
  have hExternals : ¬ key = "externals" := hKey .externals
  rw [readMember, if_neg hName, if_neg hRules, if_neg hExtras, if_neg hExternals]
  rfl

def Passes (name : Except Fault String) (d : Draft) : Prop :=
  (∃ key, name = .ok key) ∧ d.pass = .ok ()

theorem foldMembers_readMember_eq_ok_iff {members : List (Except Fault String × Draft)} {fs fs' : Fields} :
    Draft.foldMembers readMember fs members = .ok fs' ↔
      (∀ p : Part, FilledOnce p.readDraft (fs.get p) (valuesAt (.ok p.key) members) (fs'.get p)) ∧
        ∀ m ∈ members, Part.named? m.1 = none → Passes m.1 m.2 := by
  have hValues : ∀ p : Part,
      valuesAt (some p) (members.map fun m => (Part.named? m.1, m.2)) = valuesAt (.ok p.key) members :=
    fun p => (valuesAt_map (fun _ => Part.named?_eq_some_iff) id members).trans (List.map_id _)
  simp only [← hValues]
  refine Fields.slots.run_iff Part.readDraft Part.named? Passes
    (fun fs ms fs' => Draft.foldMembers readMember fs ms = .ok fs') ?_ ?_ ?_
  · intro fs fs'
    rw [Draft.foldMembers, Except.ok.injEq]
  · intro fs name d rest fs' hNone
    rw [Draft.foldMembers]
    cases name with
    | error f =>
      constructor
      · intro h
        cases h
      · rintro ⟨⟨⟨_, hName⟩, -⟩, -⟩
        cases hName
    | ok key =>
      change (readMember fs key d >>= _) = _ ↔ _
      rw [readMember_of_none hNone, bind_assoc, bind_eq_ok_iff]
      constructor
      · rintro ⟨_, hPass, hRest⟩
        exact ⟨⟨⟨key, rfl⟩, hPass⟩, hRest⟩
      · rintro ⟨⟨-, hPass⟩, hRest⟩
        exact ⟨(), hPass, hRest⟩
  · intro fs name d rest fs' p hPart
    obtain rfl := Part.named?_eq_some_iff.mp hPart
    rw [Draft.foldMembers]
    change (readMember fs p.key d >>= _) = _ ↔ _
    simp only [bind_eq_ok_iff, readMember_key_eq_ok_iff]
    constructor
    · rintro ⟨_, ⟨hOld, x, hRead, rfl⟩, hRest⟩
      exact ⟨hOld, x, hRead, hRest⟩
    · rintro ⟨hOld, x, hRead, hRest⟩
      exact ⟨_, ⟨hOld, x, hRead, rfl⟩, hRest⟩

section Items

variable {q rest : Json.ItemQueue}

theorem next_eq_ok_iff {d : Option Draft} :
    q.next = .ok (d, rest) ↔
      d = q.items.head? ∧ rest = ⟨q.items.tail, q.ending⟩ ∧ (q.items = [] → q.ending = .closed) := by
  obtain ⟨items, ending⟩ := q
  cases items with
  | nil =>
    cases ending <;>
      simp [Json.ItemQueue.next, Json.ArrayEnd.asked, Json.checkEnd, bind, Except.bind, pure, Except.pure,
        eq_comm]
  | cons first items => simp [Json.ItemQueue.next, eq_comm]

theorem part_eq_ok_iff {α : Type} {read : Draft → Except Error α} {i : Nat} {expected : String} {a : α} :
    q.part read i expected = .ok (a, rest) ↔
      ∃ d, q.items.head? = some d ∧ read d = .ok a ∧ rest = ⟨q.items.tail, q.ending⟩ := by
  constructor
  · intro h
    obtain ⟨⟨d, others⟩, hNext, hPart⟩ := bind_eq_ok_iff.mp h
    obtain ⟨hHead, rfl, -⟩ := next_eq_ok_iff.mp hNext
    cases d with
    | none => cases hPart
    | some d =>
      obtain ⟨b, hRead, hSame⟩ := bind_eq_ok_iff.mp hPart
      cases hSame
      exact ⟨d, hHead.symm, hRead, rfl⟩
  · rintro ⟨d, hHead, hRead, rfl⟩
    have hSome : q.items = [] → q.ending = .closed := by
      intro hNil
      rw [hNil] at hHead
      cases hHead
    exact bind_eq_ok_iff.mpr ⟨(some d, _), next_eq_ok_iff.mpr ⟨hHead.symm, rfl, hSome⟩,
      bind_eq_ok_iff.mpr ⟨a, hRead, rfl⟩⟩

theorem close_eq_ok_iff {surplus : Json.Surplus} {taken : Nat} {u : Unit} :
    q.close surplus taken = .ok u ↔ q.items = [] ∧ q.ending = .closed := by
  obtain ⟨items, ending⟩ := q
  cases items with
  | nil => cases ending <;> simp [Json.ItemQueue.close, Json.ArrayEnd.final, Json.checkEnd]
  | cons first items => cases surplus <;> simp [Json.ItemQueue.close]

theorem optional_eq_ok_iff {α β : Type} {d : Option Draft} {read : Draft → Except Error α} {default : α}
    {f : α → Except Error β} {b : β} :
    (match d with
      | some d => read d >>= f
      | none => pure default >>= f) = .ok b ↔
      ∃ slot, FilledOnce read none d.toList slot ∧ f (slot.getD default) = .ok b := by
  cases d with
  | none =>
    simp only [Option.toList_none, Json.filledOnce_nil_iff, exists_eq_left]
    rfl
  | some d =>
    simp only [Option.toList_some, Json.filledOnce_singleton_iff]
    constructor
    · intro h
      obtain ⟨a, hRead, hRest⟩ := bind_eq_ok_iff.mp h
      exact ⟨some a, ⟨a, hRead, rfl⟩, hRest⟩
    · rintro ⟨_, ⟨a, hRead, rfl⟩, hRest⟩
      exact bind_eq_ok_iff.mpr ⟨a, hRead, hRest⟩

theorem filledOnce_some_iff {α : Type} {read : Draft → Except Error α} {d : Option Draft} {a : α} :
    FilledOnce read none d.toList (some a) ↔ ∃ d', d = some d' ∧ read d' = .ok a := by
  cases d with
  | none => simp [Json.filledOnce_nil_iff]
  | some d => simp [Json.filledOnce_singleton_iff]

variable {surplus : Json.Surplus} {items : List Draft} {ending : Json.ArrayEnd} {g : Grammar}

theorem filledOnce_place_iff {fs : Fields} :
    (∀ p : Part, FilledOnce p.readDraft none (items[p.place]?).toList (fs.get p)) ↔
      FilledOnce readName none items.head?.toList fs.name ∧
      FilledOnce readRules none items.tail.head?.toList fs.rules ∧
      FilledOnce readRuleList none items.tail.tail.head?.toList fs.extras ∧
      FilledOnce readRuleList none items.tail.tail.tail.head?.toList fs.externals := by
  simp only [List.head?_eq_getElem?, List.getElem?_tail]
  constructor
  · exact fun h => ⟨h .name, h .rules, h .extras, h .externals⟩
  · rintro ⟨hName, hRules, hExtras, hExternals⟩ p
    cases p with
    | name => exact hName
    | rules => exact hRules
    | extras => exact hExtras
    | externals => exact hExternals

theorem tail_four_eq_nil_iff : items.tail.tail.tail.tail = [] ↔ items.length ≤ 4 := by
  rw [← List.length_eq_zero_iff]
  simp only [List.length_tail]
  omega

theorem exists_fields_of_readItems (h : readItems surplus ⟨items, ending⟩ = .ok g) :
    ending = .closed ∧ items.length ≤ 4 ∧
      ∃ fs : Fields, (∀ p : Part, FilledOnce p.readDraft none (items[p.place]?).toList (fs.get p)) ∧
        ofFields fs = .ok g := by
  obtain ⟨⟨d₁, q₁⟩, hFirst, hAfterFirst⟩ := bind_eq_ok_iff.mp h
  obtain ⟨rfl, rfl, -⟩ := next_eq_ok_iff.mp hFirst
  obtain ⟨name, hName, hAfterName⟩ := optional_eq_ok_iff.mp hAfterFirst
  obtain ⟨⟨rules, q₂⟩, hSecond, hAfterRules⟩ := bind_eq_ok_iff.mp hAfterName
  obtain ⟨d₂, hHead, hRules, rfl⟩ := part_eq_ok_iff.mp hSecond
  obtain ⟨⟨d₃, q₃⟩, hThird, hAfterThird⟩ := bind_eq_ok_iff.mp hAfterRules
  obtain ⟨rfl, rfl, -⟩ := next_eq_ok_iff.mp hThird
  obtain ⟨extras, hExtras, hAfterExtras⟩ := optional_eq_ok_iff.mp hAfterThird
  obtain ⟨⟨d₄, q₄⟩, hFourth, hAfterFourth⟩ := bind_eq_ok_iff.mp hAfterExtras
  obtain ⟨rfl, rfl, -⟩ := next_eq_ok_iff.mp hFourth
  obtain ⟨externals, hExternals, hAfterExternals⟩ := optional_eq_ok_iff.mp hAfterFourth
  obtain ⟨_, hClose, hGrammar⟩ := bind_eq_ok_iff.mp hAfterExternals
  obtain ⟨hNone, hClosed⟩ := close_eq_ok_iff.mp hClose
  refine ⟨hClosed, tail_four_eq_nil_iff.mp hNone, ⟨name, some rules, extras, externals⟩, ?_, hGrammar⟩
  exact filledOnce_place_iff.mpr ⟨hName, filledOnce_some_iff.mpr ⟨d₂, hHead, hRules⟩, hExtras, hExternals⟩

theorem readItems_of_fields {fs : Fields} (hLength : items.length ≤ 4)
    (hParts : ∀ p : Part, FilledOnce p.readDraft none (items[p.place]?).toList (fs.get p))
    (h : ofFields fs = .ok g) : readItems surplus ⟨items, .closed⟩ = .ok g := by
  -- The rules are the one part that has to be there, and they stand in the second place.
  obtain ⟨rules, hRequired, hGrammar⟩ := bind_eq_ok_iff.mp h
  obtain ⟨hName, hRules, hExtras, hExternals⟩ := filledOnce_place_iff.mp hParts
  rw [Json.required_eq_ok_iff.mp hRequired] at hRules
  obtain ⟨d, hHead, hRead⟩ := filledOnce_some_iff.mp hRules
  refine bind_eq_ok_iff.mpr ⟨_, next_eq_ok_iff.mpr ⟨rfl, rfl, fun _ => rfl⟩, ?_⟩
  refine optional_eq_ok_iff.mpr ⟨fs.name, hName, ?_⟩
  refine bind_eq_ok_iff.mpr ⟨(rules, _), part_eq_ok_iff.mpr ⟨d, hHead, hRead, rfl⟩, ?_⟩
  refine bind_eq_ok_iff.mpr ⟨_, next_eq_ok_iff.mpr ⟨rfl, rfl, fun _ => rfl⟩, ?_⟩
  refine optional_eq_ok_iff.mpr ⟨fs.extras, hExtras, ?_⟩
  refine bind_eq_ok_iff.mpr ⟨_, next_eq_ok_iff.mpr ⟨rfl, rfl, fun _ => rfl⟩, ?_⟩
  refine optional_eq_ok_iff.mpr ⟨fs.externals, hExternals, ?_⟩
  exact bind_eq_ok_iff.mpr ⟨(), close_eq_ok_iff.mpr ⟨tail_four_eq_nil_iff.mpr hLength, rfl⟩, hGrammar⟩

theorem readItems_eq_ok_iff :
    readItems surplus ⟨items, ending⟩ = .ok g ↔
      ending = .closed ∧ items.length ≤ 4 ∧
        ∃ fs : Fields, (∀ p : Part, FilledOnce p.readDraft none (items[p.place]?).toList (fs.get p)) ∧
          ofFields fs = .ok g := by
  refine ⟨exists_fields_of_readItems, ?_⟩
  rintro ⟨rfl, hLength, fs, hParts, h⟩
  exact readItems_of_fields hLength hParts h

end Items

/-- Whether a draft has the form of a grammar document, whatever its parts are. -/
def IsDocument : Draft → Prop
  | .object members ending =>
      ending = .closed ∧ ∀ m ∈ members, Part.named? m.1 = none → Passes m.1 m.2
  | .array items ending => ending = .closed ∧ items.length ≤ 4
  | _ => False

/-- A grammar is made of the parts that its document holds. -/
theorem read_eq_ok_iff {surplus : Json.Surplus} {d : Draft} {g : Grammar} :
    read surplus d = .ok g ↔
      IsDocument d ∧ ∃ fs : Fields, (∀ p : Part, FilledOnce p.readDraft none (p.draftsIn d) (fs.get p)) ∧
        ofFields fs = .ok g := by
  cases d with
  | object members ending =>
    constructor
    · intro h
      obtain ⟨fs, hMembers, hEnd⟩ := bind_eq_ok_iff.mp h
      obtain ⟨_, hAsked, hFields⟩ := bind_eq_ok_iff.mp hEnd
      obtain ⟨hParts, hOthers⟩ := foldMembers_readMember_eq_ok_iff.mp hMembers
      simp only [Fields.get_empty] at hParts
      have hClosed := Json.ObjectEnd.asked_eq_none_iff.mp (Json.checkEnd_eq_ok_iff.mp hAsked)
      exact ⟨⟨hClosed, hOthers⟩, fs, hParts, hFields⟩
    · rintro ⟨⟨rfl, hOthers⟩, fs, hParts, hFields⟩
      have hMembers : Draft.foldMembers readMember {} members = .ok fs := by
        rw [foldMembers_readMember_eq_ok_iff]
        simp only [Fields.get_empty]
        exact ⟨hParts, hOthers⟩
      exact bind_eq_ok_iff.mpr ⟨fs, hMembers, bind_eq_ok_iff.mpr ⟨(), rfl, hFields⟩⟩
  | array items ending => exact readItems_eq_ok_iff.trans and_assoc.symm
  | null | boolean _ | number _ | string _ | broken _ _ =>
    simp only [read]
    exact iff_of_false Draft.refuse_ne_ok fun h => h.1

end Grammar

end GrammarShapes
