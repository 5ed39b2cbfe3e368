import GrammarShapes.Proofs.Grammar.Fields
import GrammarShapes.Proofs.Grammar.Rules

set_option autoImplicit false

/-! # Objects that describe rules

`Describes` gives the format of rules by the members that an object has, without regard to their order or to
members that the tag does not read. The fields of a rule can be filled from an object just where the object
describes the rule that they make, so long as this holds of the values inside it.
-/

namespace GrammarShapes

open Json (Error FilledOnce)

namespace Rule

def HasTag (ms : List (String × Json)) (tag : Tag) : Prop :=
  ("type", .string tag.text) ∈ ms

/-- Whether a member that may be left out, or be null, has this value. -/
def MayHave (ms : List (String × Json)) (key : String) (value : Option Json) : Prop :=
  (key, value.getD .null) ∈ ms ∨ value = none ∧ key ∉ ms.map (·.1)

/-- Whether a value has the format of a rule, and of which. -/
inductive Describes : Json → Rule → Prop
  | blank {ms : List (String × Json)} (hTag : HasTag ms .blank) : Describes (.object ms) .blank
  | literal {ms : List (String × Json)} {text : String} (hTag : HasTag ms .literal)
      (hText : ("value", .string text) ∈ ms) : Describes (.object ms) (.literal text)
  | pattern {ms : List (String × Json)} {regex : String} {flags : Option String} (hTag : HasTag ms .pattern)
      (hRegex : ("value", .string regex) ∈ ms) (hFlags : MayHave ms "flags" (flags.map .string)) :
      Describes (.object ms) (.pattern regex flags)
  | symbol {ms : List (String × Json)} {name : String} (hTag : HasTag ms .symbol)
      (hName : ("name", .string name) ∈ ms) : Describes (.object ms) (.symbol name)
  | alias {ms : List (String × Json)} {v : Json} {content : Rule} {named : Bool} {name : String}
      (hTag : HasTag ms .alias) (hContent : ("content", v) ∈ ms) (hRule : Describes v content)
      (hNamed : ("named", .boolean named) ∈ ms) (hName : ("value", .string name) ∈ ms) :
      Describes (.object ms) (.alias content named name)
  | field {ms : List (String × Json)} {v : Json} {name : String} {content : Rule} (hTag : HasTag ms .field)
      (hName : ("name", .string name) ∈ ms) (hContent : ("content", v) ∈ ms) (hRule : Describes v content) :
      Describes (.object ms) (.field name content)
  | sequence {ms : List (String × Json)} {vs : List Json} {rs : List Rule} (hTag : HasTag ms .sequence)
      (hMembers : ("members", .array vs) ∈ ms) (hRules : List.Forall₂ Describes vs rs) :
      Describes (.object ms) (.sequence rs)
  | choice {ms : List (String × Json)} {vs : List Json} {rs : List Rule} (hTag : HasTag ms .choice)
      (hMembers : ("members", .array vs) ∈ ms) (hRules : List.Forall₂ Describes vs rs) :
      Describes (.object ms) (.choice rs)
  | zeroOrMore {ms : List (String × Json)} {v : Json} {content : Rule} (hTag : HasTag ms .zeroOrMore)
      (hContent : ("content", v) ∈ ms) (hRule : Describes v content) :
      Describes (.object ms) (.zeroOrMore content)
  | oneOrMore {ms : List (String × Json)} {v : Json} {content : Rule} (hTag : HasTag ms .oneOrMore)
      (hContent : ("content", v) ∈ ms) (hRule : Describes v content) :
      Describes (.object ms) (.oneOrMore content)
  | ranked {ms : List (String × Json)} {v : Json} {precedence : Option Precedence} {content : Rule}
      (hTag : HasTag ms .ranked) (hPrecedence : MayHave ms "value" (precedence.map Precedence.toJson))
      (hContent : ("content", v) ∈ ms) (hRule : Describes v content) :
      Describes (.object ms) (.ranked precedence content)
  | rankedLeft {ms : List (String × Json)} {v : Json} {precedence : Option Precedence} {content : Rule}
      (hTag : HasTag ms .rankedLeft) (hPrecedence : MayHave ms "value" (precedence.map Precedence.toJson))
      (hContent : ("content", v) ∈ ms) (hRule : Describes v content) :
      Describes (.object ms) (.rankedLeft precedence content)

theorem stringOf_eq_ok_iff {v : Json} {s : String} : RuleFields.stringOf v = .ok s ↔ v = .string s := by
  cases v <;> simp [RuleFields.stringOf, Json.wrongType]

theorem booleanOf_eq_ok_iff {v : Json} {b : Bool} : RuleFields.booleanOf v = .ok b ↔ v = .boolean b := by
  cases v <;> simp [RuleFields.booleanOf, Json.wrongType]

theorem flagsOf_eq_ok_iff {v : Json} {flags : Option String} :
    RuleFields.flagsOf v = .ok flags ↔ v = (flags.map .string).getD .null := by
  cases v <;> cases flags <;> simp [RuleFields.flagsOf, RuleFields.stringOf, Json.wrongType]

theorem eq_of_precedenceOf {v : Json} {precedence : Option Precedence}
    (h : RuleFields.precedenceOf v = .ok precedence) : v = (precedence.map Precedence.toJson).getD .null := by
  unfold RuleFields.precedenceOf at h
  split at h
  · cases h
    rfl
  · cases h
    rfl
  · split at h
    · rename_i n hRange
      cases h
      rw [Option.map_some, Option.getD_some, Precedence.toJson, Int64.toInt_ofInt_of_le hRange.1 hRange.2]
    · cases h
  · cases h

theorem precedenceOf_eq_ok_iff {v : Json} {precedence : Option Precedence} :
    RuleFields.precedenceOf v = .ok precedence ↔ v = (precedence.map Precedence.toJson).getD .null := by
  constructor
  · exact eq_of_precedenceOf
  · rintro rfl
    cases precedence with
    | none => rfl
    | some p => exact precedenceOf_toJson p

theorem ofName_eq_ok_iff {name : String} {tag : Tag} : tagging.ofName name = .ok tag ↔ name = tag.text := by
  constructor
  · intro h
    unfold Json.Tagging.ofName at h
    split at h
    · rename_i hFound
      cases h
      obtain ⟨before, after, hKnown, -⟩ := List.lookup_eq_some_iff.mp hFound
      have hMem : (name, tag) ∈ Tag.all.map fun t => (t.text, t) := by
        rw [show Tag.all.map (fun t => (t.text, t)) = before ++ (name, tag) :: after from hKnown]
        exact List.mem_append_right _ List.mem_cons_self
      obtain ⟨t, -, hSame⟩ := List.mem_map.mp hMem
      cases hSame
      rfl
    · cases h
  · rintro rfl
    exact ofName_text tag

section Members

variable {α : Type} {read : Json → Except Error α} {key : String} {ms : List (String × Json)}

theorem exists_mem_of_filled {a : α} (h : FilledOnce read none (valuesAt key ms) (some a)) :
    ∃ v, (key, v) ∈ ms ∧ read v = .ok a := by
  generalize hValues : valuesAt key ms = vs at h
  cases h with
  | @filled v _ _ hRead => exact ⟨v, mem_valuesAt_iff.mp (hValues ▸ List.mem_cons_self), hRead⟩

theorem filled_of_mem {v : Json} {a : α} (hNodup : (ms.map (·.1)).Nodup) (h : (key, v) ∈ ms)
    (hRead : read v = .ok a) : FilledOnce read none (valuesAt key ms) (some a) := by
  rw [valuesAt_of_nodup hNodup h]
  exact .filled rfl hRead

variable {β : Type} {readOptional : Json → Except Error (Option β)} {toJson : β → Json}

theorem mayHave_of_filled {slot : Option (Option β)}
    (hRead : ∀ {v b}, readOptional v = .ok b ↔ v = (b.map toJson).getD .null)
    (h : FilledOnce readOptional none (valuesAt key ms) slot) :
    MayHave ms key ((slot.getD none).map toJson) := by
  cases slot with
  | none =>
    generalize hValues : valuesAt key ms = vs at h
    cases h with
    | kept => exact Or.inr ⟨rfl, valuesAt_eq_nil_iff.mp hValues⟩
  | some b =>
    obtain ⟨v, hMember, hValue⟩ := exists_mem_of_filled h
    rw [hRead.mp hValue] at hMember
    exact Or.inl hMember

theorem exists_filled_of_mayHave {b : Option β} (hNodup : (ms.map (·.1)).Nodup)
    (hRead : ∀ {v b}, readOptional v = .ok b ↔ v = (b.map toJson).getD .null)
    (h : MayHave ms key (b.map toJson)) :
    ∃ slot, FilledOnce readOptional none (valuesAt key ms) slot ∧ slot.getD none = b := by
  rcases h with hMember | ⟨hNone, hAbsent⟩
  · exact ⟨some b, filled_of_mem hNodup hMember (hRead.mpr rfl), rfl⟩
  · refine ⟨none, ?_, (Option.map_eq_none_iff.mp hNone).symm⟩
    rw [valuesAt_eq_nil_iff.mpr hAbsent]
    exact .kept

end Members

def Agrees (v : Json) : Prop :=
  ∀ r, ofJson v = .ok r ↔ Describes v r

structure PartsAgree (tag : Tag) (ms : List (String × Json)) : Prop where
  content : .content ∈ tag.fields → ∀ v, ("content", v) ∈ ms → Agrees v
  members : .members ∈ tag.fields → ∀ vs, ("members", .array vs) ∈ ms → ∀ v ∈ vs, Agrees v

theorem allOfJson_eq_ok_iff_describes {vs : List Json} {rs : List Rule} (h : ∀ v ∈ vs, Agrees v) :
    allOfJson vs = .ok rs ↔ List.Forall₂ Describes vs rs := by
  induction vs generalizing rs with
  | nil => rw [allOfJson_eq_ok_iff, List.forall₂_nil_left_iff, List.forall₂_nil_left_iff]
  | cons v vs ih =>
    obtain ⟨hHead, hTail⟩ := List.forall_mem_cons.mp h
    rw [allOfJson_eq_ok_iff, List.forall₂_cons_left_iff, List.forall₂_cons_left_iff]
    simp only [hHead _, ← allOfJson_eq_ok_iff, ih hTail]

section Filled

variable {tag : Tag} {ms : List (String × Json)} {fs : RuleFields}

theorem exists_mem_of_filledFrom {f : RuleField} {x : f.Value} (hFilled : FilledFrom tag ms fs)
    (hField : f ∈ tag.fields) (h : fs.get f = some x) : ∃ v, (f.key, v) ∈ ms ∧ f.readValue v = .ok x := by
  have hSlot := hFilled f hField
  rw [h] at hSlot
  exact exists_mem_of_filled hSlot

theorem mem_of_required (f : RuleField) {x : f.Value} {w : Json} (hFilled : FilledFrom tag ms fs)
    (hField : f ∈ tag.fields) (hRead : ∀ {v}, f.readValue v = .ok x → v = w)
    (h : RuleFields.required f (fs.get f) = .ok x) : (f.key, w) ∈ ms := by
  obtain ⟨v, hMember, hValue⟩ := exists_mem_of_filledFrom hFilled hField (Json.required_eq_ok_iff.mp h)
  rwa [hRead hValue] at hMember

theorem exists_mem_of_content {r : Rule} (hParts : PartsAgree tag ms) (hFilled : FilledFrom tag ms fs)
    (hField : .content ∈ tag.fields) (h : RuleFields.required .content fs.content = .ok r) :
    ∃ v, ("content", v) ∈ ms ∧ Describes v r := by
  obtain ⟨v, hMember, hRead⟩ := exists_mem_of_filledFrom hFilled hField (Json.required_eq_ok_iff.mp h)
  exact ⟨v, hMember, (hParts.content hField v hMember r).mp hRead⟩

theorem exists_mem_of_members {rs : List Rule} (hParts : PartsAgree tag ms) (hFilled : FilledFrom tag ms fs)
    (hField : .members ∈ tag.fields) (h : RuleFields.required .members fs.members = .ok rs) :
    ∃ vs, ("members", .array vs) ∈ ms ∧ List.Forall₂ Describes vs rs := by
  obtain ⟨v, hMember, hRead⟩ := exists_mem_of_filledFrom hFilled hField (Json.required_eq_ok_iff.mp h)
  cases v with
  | array vs =>
    exact ⟨vs, hMember, (allOfJson_eq_ok_iff_describes (hParts.members hField vs hMember)).mp hRead⟩
  | null | boolean _ | number _ | string _ | object _ => cases hRead

theorem describes_of_build {r : Rule} (hTag : HasTag ms tag) (hParts : PartsAgree tag ms)
    (hFilled : FilledFrom tag ms fs) (hBuild : fs.build tag = .ok r) : Describes (.object ms) r := by
  cases tag with
  | blank =>
    cases hBuild
    exact .blank hTag
  | literal =>
    obtain ⟨text, hText, hRule⟩ := bind_eq_ok_iff.mp hBuild
    cases hRule
    exact .literal hTag (mem_of_required .text hFilled (by decide) stringOf_eq_ok_iff.mp hText)
  | pattern =>
    obtain ⟨regex, hRegex, hRule⟩ := bind_eq_ok_iff.mp hBuild
    cases hRule
    exact .pattern hTag (mem_of_required .text hFilled (by decide) stringOf_eq_ok_iff.mp hRegex)
      (mayHave_of_filled flagsOf_eq_ok_iff (hFilled .flags (by decide)))
  | symbol =>
    obtain ⟨name, hName, hRule⟩ := bind_eq_ok_iff.mp hBuild
    cases hRule
    exact .symbol hTag (mem_of_required .name hFilled (by decide) stringOf_eq_ok_iff.mp hName)
  | «alias» =>
    obtain ⟨content, hContent, hAfterContent⟩ := bind_eq_ok_iff.mp hBuild
    obtain ⟨named, hNamed, hAfterNamed⟩ := bind_eq_ok_iff.mp hAfterContent
    obtain ⟨name, hName, hRule⟩ := bind_eq_ok_iff.mp hAfterNamed
    cases hRule
    obtain ⟨v, hMember, hDescribes⟩ := exists_mem_of_content hParts hFilled (by decide) hContent
    exact .alias hTag hMember hDescribes
      (mem_of_required .named hFilled (by decide) booleanOf_eq_ok_iff.mp hNamed)
      (mem_of_required .text hFilled (by decide) stringOf_eq_ok_iff.mp hName)
  | field =>
    obtain ⟨name, hName, hAfterName⟩ := bind_eq_ok_iff.mp hBuild
    obtain ⟨content, hContent, hRule⟩ := bind_eq_ok_iff.mp hAfterName
    cases hRule
    obtain ⟨v, hMember, hDescribes⟩ := exists_mem_of_content hParts hFilled (by decide) hContent
    exact .field hTag (mem_of_required .name hFilled (by decide) stringOf_eq_ok_iff.mp hName) hMember
      hDescribes
  | sequence | choice =>
    obtain ⟨members, hMembers, hRule⟩ := bind_eq_ok_iff.mp hBuild
    cases hRule
    obtain ⟨vs, hMember, hDescribes⟩ := exists_mem_of_members hParts hFilled (by decide) hMembers
    first
      | exact .sequence hTag hMember hDescribes
      | exact .choice hTag hMember hDescribes
  | zeroOrMore | oneOrMore =>
    obtain ⟨content, hContent, hRule⟩ := bind_eq_ok_iff.mp hBuild
    cases hRule
    obtain ⟨v, hMember, hDescribes⟩ := exists_mem_of_content hParts hFilled (by decide) hContent
    first
      | exact .zeroOrMore hTag hMember hDescribes
      | exact .oneOrMore hTag hMember hDescribes
  | ranked | rankedLeft =>
    obtain ⟨content, hContent, hRule⟩ := bind_eq_ok_iff.mp hBuild
    cases hRule
    obtain ⟨v, hMember, hDescribes⟩ := exists_mem_of_content hParts hFilled (by decide) hContent
    have hPrecedence := mayHave_of_filled precedenceOf_eq_ok_iff (hFilled .precedence (by decide))
    first
      | exact .ranked hTag hPrecedence hMember hDescribes
      | exact .rankedLeft hTag hPrecedence hMember hDescribes

theorem exists_build_of_describes {r : Rule} (hNodup : (ms.map (·.1)).Nodup)
    (hParts : ∀ tag, HasTag ms tag → PartsAgree tag ms) (h : Describes (.object ms) r) :
    HasTag ms r.tag ∧ ∃ fs, FilledFrom r.tag ms fs ∧ fs.build r.tag = .ok r := by
  cases h with
  | blank hTag => exact ⟨hTag, {}, List.forall_mem_nil _, rfl⟩
  | @literal _ text hTag hText =>
    exact ⟨hTag, { text := some text }, List.forall_mem_singleton.mpr (filled_of_mem hNodup hText rfl), rfl⟩
  | @pattern _ regex flags hTag hRegex hFlags =>
    obtain ⟨slot, hSlot, rfl⟩ := exists_filled_of_mayHave hNodup flagsOf_eq_ok_iff hFlags
    exact ⟨hTag, { text := some regex, flags := slot }, List.forall_mem_cons.mpr
      ⟨filled_of_mem hNodup hRegex rfl, List.forall_mem_singleton.mpr hSlot⟩, rfl⟩
  | @symbol _ name hTag hName =>
    exact ⟨hTag, { name := some name }, List.forall_mem_singleton.mpr (filled_of_mem hNodup hName rfl), rfl⟩
  | @«alias» _ v content named name hTag hContent hRule hNamed hName =>
    have hRead := ((hParts _ hTag).content (by decide) v hContent content).mpr hRule
    exact ⟨hTag, { content := some content, named := some named, text := some name },
      List.forall_mem_cons.mpr ⟨filled_of_mem hNodup hContent hRead, List.forall_mem_cons.mpr
        ⟨filled_of_mem hNodup hNamed rfl, List.forall_mem_singleton.mpr (filled_of_mem hNodup hName rfl)⟩⟩,
      rfl⟩
  | @field _ v name content hTag hName hContent hRule =>
    have hRead := ((hParts _ hTag).content (by decide) v hContent content).mpr hRule
    exact ⟨hTag, { name := some name, content := some content }, List.forall_mem_cons.mpr
      ⟨filled_of_mem hNodup hName rfl, List.forall_mem_singleton.mpr (filled_of_mem hNodup hContent hRead)⟩,
      rfl⟩
  | @sequence _ vs rs hTag hMembers hRules | @choice _ vs rs hTag hMembers hRules =>
    have hRead := (allOfJson_eq_ok_iff_describes ((hParts _ hTag).members (by decide) vs hMembers)).mpr hRules
    exact ⟨hTag, { members := some rs }, List.forall_mem_singleton.mpr (filled_of_mem hNodup hMembers hRead),
      rfl⟩
  | @zeroOrMore _ v content hTag hContent hRule | @oneOrMore _ v content hTag hContent hRule =>
    have hRead := ((hParts _ hTag).content (by decide) v hContent content).mpr hRule
    exact ⟨hTag, { content := some content },
      List.forall_mem_singleton.mpr (filled_of_mem hNodup hContent hRead), rfl⟩
  | @ranked _ v precedence content hTag hPrecedence hContent hRule
  | @rankedLeft _ v precedence content hTag hPrecedence hContent hRule =>
    have hRead := ((hParts _ hTag).content (by decide) v hContent content).mpr hRule
    obtain ⟨slot, hSlot, rfl⟩ := exists_filled_of_mayHave hNodup precedenceOf_eq_ok_iff hPrecedence
    exact ⟨hTag, { precedence := slot, content := some content }, List.forall_mem_cons.mpr
      ⟨hSlot, List.forall_mem_singleton.mpr (filled_of_mem hNodup hContent hRead)⟩, rfl⟩

end Filled

end Rule

end GrammarShapes
