import GrammarShapes.Grammar.Reading
import GrammarShapes.Proofs.Json.Members

set_option autoImplicit false

/-! # The fields of rules

Every field of a rule is read from the values that stand at its name, and from nothing else. Objects and
lists fill the same fields, inside other rules and directly in a grammar, and differ only in how the tag is
found: `Spells` says once which values stand for which rules, for both ways to read a tag.
-/

namespace GrammarShapes

open Json (Error Draft FilledOnce)

namespace RuleField

abbrev Value : RuleField → Type
  | .text => String
  | .flags => Option String
  | .name => String
  | .content => Rule
  | .named => Bool
  | .members => List Rule
  | .precedence => Option Precedence

def readValue : (f : RuleField) → Json → Except Error f.Value
  | .text, v => RuleFields.stringOf v
  | .flags, v => RuleFields.flagsOf v
  | .name, v => RuleFields.stringOf v
  | .content, v => Rule.ofJson v
  | .named, v => RuleFields.booleanOf v
  | .members, .array vs => Rule.allOfJson vs
  | .members, v => Json.wrongType (.ofJson v) "a sequence"
  | .precedence, v => RuleFields.precedenceOf v

end RuleField

namespace RuleFields

variable {fs fs' : RuleFields} {f g : RuleField}

def get (fs : RuleFields) : (f : RuleField) → Option f.Value
  | .text => fs.text
  | .flags => fs.flags
  | .name => fs.name
  | .content => fs.content
  | .named => fs.named
  | .members => fs.members
  | .precedence => fs.precedence

def set (fs : RuleFields) : (f : RuleField) → f.Value → RuleFields
  | .text, x => { fs with text := some x }
  | .flags, x => { fs with flags := some x }
  | .name, x => { fs with name := some x }
  | .content, x => { fs with content := some x }
  | .named, x => { fs with named := some x }
  | .members, x => { fs with members := some x }
  | .precedence, x => { fs with precedence := some x }

def slots : Json.Slots RuleField RuleField.Value RuleFields where
  get := get
  set := set
  get_set_self _ f _ := by cases f <;> rfl
  get_set_of_ne _ f g _ h := by cases f <;> cases g <;> first | rfl | exact absurd rfl h
  ext_get fs fs' h := by
    cases fs
    cases fs'
    cases h .text
    cases h .flags
    cases h .name
    cases h .content
    cases h .named
    cases h .members
    cases h .precedence
    rfl

theorem has_eq (fs : RuleFields) (f : RuleField) : fs.has f = (fs.get f).isSome := by
  cases f <;> rfl

theorem get_empty (f : RuleField) : get {} f = none := by
  cases f <;> rfl

def restrict (fs : RuleFields) (tag : Tag) : RuleFields where
  text := if .text ∈ tag.fields then fs.text else none
  flags := if .flags ∈ tag.fields then fs.flags else none
  name := if .name ∈ tag.fields then fs.name else none
  content := if .content ∈ tag.fields then fs.content else none
  named := if .named ∈ tag.fields then fs.named else none
  members := if .members ∈ tag.fields then fs.members else none
  precedence := if .precedence ∈ tag.fields then fs.precedence else none

theorem get_restrict (fs : RuleFields) (tag : Tag) (f : RuleField) :
    (fs.restrict tag).get f = if f ∈ tag.fields then fs.get f else none := by
  cases f <;> rfl

theorem build_restrict (fs : RuleFields) (tag : Tag) : (fs.restrict tag).build tag = fs.build tag := by
  cases tag <;> rfl

theorem putPlain_eq (fs : RuleFields) (v : Json) (hContent : f ≠ .content) (hMembers : f ≠ .members) :
    fs.putPlain f v = (f.readValue v >>= fun x => .ok (fs.set f x)) := by
  cases f with
  | content => exact absurd rfl hContent
  | members => exact absurd rfl hMembers
  | text | flags | name | named | precedence => rfl

end RuleFields

namespace Tag

variable {tag : Tag} {f : RuleField} {key : String}

theorem field?_key (h : f ∈ tag.fields) : tag.field? f.key = some f := by
  revert h
  cases tag <;> cases f <;> decide

theorem field?_eq_some_iff : tag.field? key = some f ↔ f ∈ tag.fields ∧ f.key = key := by
  constructor
  · intro h
    exact ⟨List.mem_of_find?_eq_some h, by simpa using List.find?_some h⟩
  · rintro ⟨hField, rfl⟩
    exact field?_key hField

def valuesOf (tag : Tag) (f : RuleField) (ms : List (String × Json)) : List Json :=
  valuesAt (some f) (ms.map fun m => (tag.field? m.1, m.2))

theorem valuesOf_of_mem (h : f ∈ tag.fields) (ms : List (String × Json)) :
    tag.valuesOf f ms = valuesAt f.key ms := by
  have hKey : ∀ k, tag.field? k = some f ↔ k = f.key := fun k =>
    field?_eq_some_iff.trans ((and_iff_right h).trans eq_comm)
  exact (valuesAt_map hKey id ms).trans (List.map_id _)

theorem valuesOf_of_not_mem (h : f ∉ tag.fields) (ms : List (String × Json)) : tag.valuesOf f ms = [] := by
  rw [valuesOf, valuesAt_eq_nil_iff]
  simp only [List.map_map, List.mem_map, not_exists, not_and, Function.comp]
  exact fun m _ hField => h (field?_eq_some_iff.mp hField).1

end Tag

namespace Rule

variable {tag : Tag} {fs fs' : RuleFields} {f : RuleField} {key : String} {v : Json}

theorem ofMembers_cons_of_none {rest : List (String × Json)} (h : tag.field? key = none) :
    ofMembers tag fs ((key, v) :: rest) = ofMembers tag fs rest := by
  rw [ofMembers, h]

theorem ofMembers_cons_eq_ok_iff {rest : List (String × Json)} (h : tag.field? key = some f) :
    ofMembers tag fs ((key, v) :: rest) = .ok fs' ↔
      fs.get f = none ∧ ∃ x, f.readValue v = .ok x ∧ ofMembers tag (fs.set f x) rest = .ok fs' := by
  rw [ofMembers, h]
  dsimp only
  rw [RuleFields.has_eq]
  cases hOld : fs.get f with
  | some _ => simp
  | none =>
    rw [Option.isSome_none, if_neg Bool.false_ne_true, and_iff_right rfl]
    cases f with
    | content => exact bind_eq_ok_iff
    | members =>
      cases v with
      | array vs => exact bind_eq_ok_iff
      | null | boolean _ | number _ | string _ | object _ => simp [RuleField.readValue, Json.wrongType]
    | text | flags | name | named | precedence =>
      dsimp only
      rw [RuleFields.putPlain_eq, bind_assoc]
      · exact bind_eq_ok_iff
      · nofun
      · nofun

theorem ofMembers_eq_ok_iff {ms : List (String × Json)} :
    ofMembers tag fs ms = .ok fs' ↔
      ∀ f, FilledOnce f.readValue (fs.get f) (tag.valuesOf f ms) (fs'.get f) := by
  refine (RuleFields.slots.run_iff RuleField.readValue tag.field? (fun _ _ => True)
    (fun fs ms fs' => ofMembers tag fs ms = .ok fs') ?_ ?_ ?_).trans (and_iff_left fun _ _ _ => trivial)
  · intro fs fs'
    rw [ofMembers, Except.ok.injEq]
  · intro fs key v rest fs' hField
    rw [ofMembers_cons_of_none hField, true_and]
  · intro fs key v rest fs' f hField
    exact ofMembers_cons_eq_ok_iff hField

theorem ofItems_cons (i : Nat) (fields : List RuleField) (vs : List Json) :
    ofItems tag i (f :: fields) fs (v :: vs) =
      (f.readValue v >>= fun x => ofItems tag (i + 1) fields (fs.set f x) vs) := by
  rw [ofItems.eq_def]
  cases f with
  | content => rfl
  | members => cases v <;> rfl
  | text | flags | name | named | precedence =>
    dsimp only
    rw [RuleFields.putPlain_eq, bind_assoc]
    · rfl
    · nofun
    · nofun

theorem allOfJson_eq_ok_iff {vs : List Json} {rs : List Rule} :
    allOfJson vs = .ok rs ↔ List.Forall₂ (fun v r => ofJson v = .ok r) vs rs := by
  induction vs generalizing rs with
  | nil =>
    rw [allOfJson, Except.ok.injEq]
    exact ⟨fun h => h ▸ .nil, fun h => by cases h; rfl⟩
  | cons v vs ih =>
    constructor
    · intro h
      obtain ⟨r, hHead, hRest⟩ := bind_eq_ok_iff.mp h
      obtain ⟨rest, hTail, hSame⟩ := bind_eq_ok_iff.mp hRest
      cases hSame
      exact .cons hHead (ih.mp hTail)
    · intro h
      cases h with
      | cons hHead hTail => exact bind_eq_ok_iff.mpr ⟨_, hHead, bind_eq_ok_iff.mpr ⟨_, ih.mpr hTail, rfl⟩⟩

def FilledFrom (tag : Tag) (ms : List (String × Json)) (fs : RuleFields) : Prop :=
  ∀ f ∈ tag.fields, FilledOnce f.readValue none (valuesAt f.key ms) (fs.get f)

/-- No field of a rule has the name of the tag, so that taking the tag away changes none of them. -/
theorem filledFrom_filter_iff {ms : List (String × Json)} :
    FilledFrom tag (ms.filter (·.1 ≠ tagging.field)) fs ↔ FilledFrom tag ms fs := by
  have hValues : ∀ f : RuleField, valuesAt f.key (ms.filter (·.1 ≠ tagging.field)) = valuesAt f.key ms := by
    intro f
    have hKey : f.key ≠ tagging.field := by cases f <;> decide
    exact valuesAt_filter (fun _ => decide_eq_true hKey) ms
  simp only [FilledFrom, hValues]

theorem ofMembers_build_eq_ok_iff {ms : List (String × Json)} {r : Rule} :
    (ofMembers tag {} ms >>= fun fs => fs.build tag) = .ok r ↔
      ∃ fs, FilledFrom tag ms fs ∧ fs.build tag = .ok r := by
  constructor
  · intro h
    obtain ⟨fs, hMembers, hBuild⟩ := bind_eq_ok_iff.mp h
    refine ⟨fs, fun f hField => ?_, hBuild⟩
    have hFilled := ofMembers_eq_ok_iff.mp hMembers f
    rwa [RuleFields.get_empty, Tag.valuesOf_of_mem hField] at hFilled
  · rintro ⟨fs, hFilled, hBuild⟩
    refine bind_eq_ok_iff.mpr ⟨fs.restrict tag, ofMembers_eq_ok_iff.mpr fun f => ?_,
      (fs.build_restrict tag).trans hBuild⟩
    rw [RuleFields.get_empty, RuleFields.get_restrict]
    by_cases hField : f ∈ tag.fields
    · rw [if_pos hField, Tag.valuesOf_of_mem hField]
      exact hFilled f hField
    · rw [if_neg hField, Tag.valuesOf_of_not_mem hField]
      exact .kept

/-- What a value stands for as a rule if `tagOf` reads its tag. -/
inductive Spells (tagOf : Json → Except Error Tag) : Json → Rule → Prop
  | object {ms : List (String × Json)} {tag : Tag} {fs : RuleFields} {r : Rule}
      (hTag : FilledOnce tagOf none (valuesAt tagging.field ms) (some tag)) (hFields : FilledFrom tag ms fs)
      (hBuild : fs.build tag = .ok r) : Spells tagOf (.object ms) r
  | array {v : Json} {vs : List Json} {tag : Tag} {fs : RuleFields} {r : Rule} (hTag : tagOf v = .ok tag)
      (hFields : ofItems tag 0 tag.fields {} vs = .ok fs) (hBuild : fs.build tag = .ok r) :
      Spells tagOf (.array (v :: vs)) r

/-- A value inside another rule may name its tag or give its number. -/
theorem ofJson_eq_ok_iff {r : Rule} : ofJson v = .ok r ↔ Spells tagging.ofJson v r := by
  constructor
  · intro h
    cases v with
    | object ms =>
      rw [ofJson] at h
      obtain ⟨found, hFound, hRule⟩ := bind_eq_ok_iff.mp h
      obtain ⟨tag, hRequired, hMembers⟩ := bind_eq_ok_iff.mp hRule
      obtain ⟨fs, hFields, hBuild⟩ := ofMembers_build_eq_ok_iff.mp hMembers
      rw [Json.required_eq_ok_iff.mp hRequired] at hFound
      exact .object (Json.Tagging.findTag_eq_ok_iff.mp hFound) hFields hBuild
    | array vs =>
      cases vs with
      | nil => cases h
      | cons v vs =>
        rw [ofJson] at h
        obtain ⟨tag, hTag, hFilled⟩ := bind_eq_ok_iff.mp h
        obtain ⟨fs, hFields, hBuild⟩ := bind_eq_ok_iff.mp hFilled
        exact .array hTag hFields hBuild
    | null | boolean _ | number _ | string _ => cases h
  · intro h
    cases h with
    | object hTag hFields hBuild =>
      rw [ofJson]
      exact bind_eq_ok_iff.mpr ⟨_, Json.Tagging.findTag_eq_ok_iff.mpr hTag,
        bind_eq_ok_iff.mpr ⟨_, rfl, ofMembers_build_eq_ok_iff.mpr ⟨_, hFields, hBuild⟩⟩⟩
    | array hTag hFields hBuild =>
      rw [ofJson]
      exact bind_eq_ok_iff.mpr ⟨_, hTag, bind_eq_ok_iff.mpr ⟨_, hFields, hBuild⟩⟩

/-- A value that stands directly in a grammar has to name its tag. -/
theorem read_ofJson_eq_ok_iff {r : Rule} : read (.ofJson v) = .ok r ↔ Spells tagging.ofValue v r := by
  constructor
  · intro h
    obtain ⟨⟨tag, content⟩, hContent, hRule⟩ := bind_eq_ok_iff.mp h
    cases v with
    | object ms =>
      obtain ⟨hTag, rfl⟩ := Json.Tagging.read_object_eq_ok_iff.mp hContent
      change (ofMembers tag {} _ >>= fun fs => fs.build tag) = .ok r at hRule
      obtain ⟨fs, hFields, hBuild⟩ := ofMembers_build_eq_ok_iff.mp hRule
      exact .object hTag (filledFrom_filter_iff.mp hFields) hBuild
    | array vs =>
      cases vs with
      | nil => cases hContent
      | cons v vs =>
        obtain ⟨hTag, rfl⟩ := Json.Tagging.read_array_eq_ok_iff.mp hContent
        change (ofItems tag 0 tag.fields {} vs >>= fun fs => fs.build tag) = .ok r at hRule
        obtain ⟨fs, hFields, hBuild⟩ := bind_eq_ok_iff.mp hRule
        exact .array hTag hFields hBuild
    | null | boolean _ | number _ | string _ => cases hContent
  · intro h
    cases h with
    | object hTag hFields hBuild =>
      exact bind_eq_ok_iff.mpr ⟨_, Json.Tagging.read_object_eq_ok_iff.mpr ⟨hTag, rfl⟩,
        ofMembers_build_eq_ok_iff.mpr ⟨_, filledFrom_filter_iff.mpr hFields, hBuild⟩⟩
    | array hTag hFields hBuild =>
      exact bind_eq_ok_iff.mpr ⟨_, Json.Tagging.read_array_eq_ok_iff.mpr ⟨hTag, rfl⟩,
        bind_eq_ok_iff.mpr ⟨_, hFields, hBuild⟩⟩

theorem readsWhole_read : Draft.ReadsWhole read := by
  intro d r h
  obtain ⟨_, hContent, -⟩ := bind_eq_ok_iff.mp h
  exact Json.Tagging.exists_ofJson_of_read hContent

end Rule

end GrammarShapes
