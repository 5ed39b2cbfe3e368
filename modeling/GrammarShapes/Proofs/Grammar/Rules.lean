import GrammarShapes.Grammar.Reading
import GrammarShapes.Grammar.Writing
import GrammarShapes.Proofs.Grammar.References
import GrammarShapes.Proofs.Json.Limited

set_option autoImplicit false

/-! # Rules that are written

A rule is read back from the value that is written for it. The members behind the tag fill exactly the
fields of the kind of rule, and what is left out is optional. A rule that stands directly in a grammar is
read from the draft of its value, and fails only for want of room.
-/

namespace GrammarShapes

namespace Rule

open Json (limitedRead limited_zero limited_bind)

theorem allOfJson_allToJson {rs : List Rule} (h : ∀ r ∈ rs, ofJson r.toJson = .ok r) :
    allOfJson (allToJson rs) = .ok rs := by
  induction rs with
  | nil => rfl
  | cons r rest ih =>
    obtain ⟨hHead, hTail⟩ := List.forall_mem_cons.mp h
    rw [allToJson, allOfJson, hHead, ih hTail]
    rfl

theorem precedenceOf_toJson (p : Precedence) : RuleFields.precedenceOf p.toJson = .ok (some p) := by
  cases p with
  | name s => rfl
  | level n =>
    have hLow := n.le_toInt
    have hHigh := n.toInt_lt
    rw [Precedence.toJson, RuleFields.precedenceOf, if_pos (by omega), Int64.ofInt_toInt]

section Fields

variable {tag : Tag} {fs fs' : RuleFields} {key : String} {rest : List (String × Json)}

theorem ofMembers_plain (f : RuleField) {v : Json} (hField : tag.field? key = some f)
    (hNew : fs.has f = false) (hContent : f ≠ .content) (hMembers : f ≠ .members)
    (hPut : fs.putPlain f v = .ok fs') : ofMembers tag fs ((key, v) :: rest) = ofMembers tag fs' rest := by
  rw [ofMembers, hField]
  change (if fs.has f = true then _ else _) = _
  rw [hNew, if_neg Bool.false_ne_true]
  cases f with
  | content => exact absurd rfl hContent
  | members => exact absurd rfl hMembers
  | text | flags | name | named | precedence =>
    change (fs.putPlain _ v >>= _) = _
    rw [hPut]
    rfl

theorem ofMembers_content {v : Json} {c : Rule} (hField : tag.field? key = some .content)
    (hNew : fs.content = none) (hRead : ofJson v = .ok c) :
    ofMembers tag fs ((key, v) :: rest) = ofMembers tag { fs with content := some c } rest := by
  rw [ofMembers, hField]
  change (if fs.content.isSome = true then _ else (ofJson v >>= _)) = _
  rw [hNew, Option.isSome_none, if_neg Bool.false_ne_true, hRead]
  rfl

theorem ofMembers_members {vs : List Json} {rs : List Rule} (hField : tag.field? key = some .members)
    (hNew : fs.members = none) (hRead : allOfJson vs = .ok rs) :
    ofMembers tag fs ((key, .array vs) :: rest) = ofMembers tag { fs with members := some rs } rest := by
  rw [ofMembers, hField]
  change (if fs.members.isSome = true then _ else (allOfJson vs >>= _)) = _
  rw [hNew, Option.isSome_none, if_neg Bool.false_ne_true, hRead]
  rfl

end Fields

/-- The value of a rule is its tag and then members that fill the fields of the rule. -/
theorem exists_members (r : Rule) (h : ∀ c ∈ r.children, ofJson c.toJson = .ok c) :
    ∃ members, r.toJson = .object (tagMember r.tag :: members) ∧
      (∀ m ∈ members, m.1 ≠ tagging.field) ∧
      (ofMembers r.tag {} members >>= fun fs => fs.build r.tag) = .ok r := by
  cases r with
  | blank => exact ⟨_, rfl, by simp, rfl⟩
  | literal text => exact ⟨_, rfl, by simp [tagging], rfl⟩
  | pattern regex flags =>
    cases flags with
    | none => exact ⟨_, rfl, by simp [tagging], rfl⟩
    | some flags => exact ⟨_, rfl, by simp [tagging], rfl⟩
  | symbol name => exact ⟨_, rfl, by simp [tagging], rfl⟩
  | «alias» content named name =>
    refine ⟨_, rfl, by simp [tagging], ?_⟩
    rw [ofMembers_content rfl rfl (h content List.mem_cons_self)]
    rfl
  | field name content =>
    refine ⟨_, rfl, by simp [tagging], ?_⟩
    rw [ofMembers_plain .name rfl rfl nofun nofun rfl,
      ofMembers_content rfl rfl (h content List.mem_cons_self)]
    rfl
  | sequence members | choice members =>
    have hAll : allOfJson (allToJson members) = .ok members := allOfJson_allToJson h
    refine ⟨_, rfl, by simp [tagging], ?_⟩
    rw [ofMembers_members rfl rfl hAll]
    rfl
  | zeroOrMore content | oneOrMore content =>
    refine ⟨_, rfl, by simp [tagging], ?_⟩
    rw [ofMembers_content rfl rfl (h content List.mem_cons_self)]
    rfl
  | ranked precedence content | rankedLeft precedence content =>
    cases precedence with
    | none =>
      refine ⟨[("content", content.toJson)], rfl, by simp [tagging], ?_⟩
      rw [ofMembers_content rfl rfl (h content List.mem_cons_self)]
      rfl
    | some p =>
      refine ⟨[("value", p.toJson), ("content", content.toJson)], rfl, by simp [tagging], ?_⟩
      have hPut : RuleFields.putPlain {} .precedence p.toJson = .ok { precedence := some (some p) } := by
        rw [RuleFields.putPlain, precedenceOf_toJson]
        rfl
      rw [ofMembers_plain .precedence rfl rfl nofun nofun hPut,
        ofMembers_content rfl rfl (h content List.mem_cons_self)]
      rfl

theorem ofName_text (t : Tag) : tagging.ofName t.text = .ok t := by
  cases t <;> rfl

theorem field?_tag (t : Tag) : t.field? tagging.field = none := by
  cases t <;> decide

theorem ofJson_toJson (r : Rule) : ofJson r.toJson = .ok r := by
  induction r using inductionOnChildren with
  | step r ih =>
    obtain ⟨members, hJson, hKeys, hBuild⟩ := exists_members r ih
    have hTag : tagging.findTag none (tagMember r.tag :: members) = .ok (some r.tag) :=
      tagging.findTag_of_field (ofName_text r.tag) hKeys
    have hSkip : ofMembers r.tag {} (tagMember r.tag :: members) = ofMembers r.tag {} members := by
      have hNone : r.tag.field? "type" = none := field?_tag r.tag
      rw [tagMember, ofMembers, hNone]
    rw [hJson, ofJson, hTag]
    change (ofMembers r.tag {} (tagMember r.tag :: members) >>= fun fs => fs.build r.tag) = .ok r
    rw [hSkip, hBuild]

theorem read_draftAt_toJson (n : Nat) (r : Rule) :
    read (Json.draftAt n r.toJson) = limitedRead n r.toJson.nesting r := by
  obtain ⟨members, hJson, hKeys, hBuild⟩ := exists_members r fun c _ => ofJson_toJson c
  have hRead := tagging.read_draftAt (n := n) (ofName_text r.tag) hKeys
  have hNesting : r.toJson.nesting = Json.nestingMembers members + 1 := by
    rw [hJson, tagMember, Json.nesting, Json.nestingMembers, Json.nesting, Nat.zero_max]
  rw [hNesting, hJson, read]
  change (tagging.read (Json.draftAt n (.object ((tagging.field, .string r.tag.text) :: members))) >>= _) = _
  rw [hRead]
  exact Json.limited_bind_ok hBuild

theorem isWhole_precedence (p : Precedence) : Json.IsWhole p.toJson := by
  cases p with
  | name s => exact .string s
  | level n =>
    have hLow := n.le_toInt
    have hHigh := n.toInt_lt
    exact .number ⟨by omega, by omega⟩

theorem isWhole_allToJson {rs : List Rule} (h : ∀ r ∈ rs, Json.IsWhole r.toJson) :
    Json.IsWhole (.array (allToJson rs)) := by
  rw [allToJson_eq_map]
  exact .array (List.forall_mem_map.mpr h)

theorem isWhole_toJson (r : Rule) : Json.IsWhole r.toJson := by
  induction r using inductionOnChildren with
  | step r ih =>
    have hTag : ∀ t, Json.IsWhole (tagMember t).2 := fun t => .string t.text
    cases r with
    | blank => exact .object (by simp [hTag])
    | literal _ | symbol _ => exact .object (by simp [hTag, Json.IsWhole.string])
    | pattern regex flags => cases flags <;> exact .object (by simp [hTag, Json.IsWhole.string])
    | «alias» content named name =>
      have hContent := ih content List.mem_cons_self
      exact .object (by simp [hTag, Json.IsWhole.string, Json.IsWhole.boolean, hContent])
    | field name content =>
      have hContent := ih content List.mem_cons_self
      exact .object (by simp [hTag, Json.IsWhole.string, hContent])
    | sequence members | choice members =>
      have hMembers : Json.IsWhole (.array (allToJson members)) := isWhole_allToJson ih
      exact .object (by simpa [hTag] using hMembers)
    | zeroOrMore content | oneOrMore content =>
      have hContent := ih content List.mem_cons_self
      exact .object (by simp [hTag, hContent])
    | ranked precedence content | rankedLeft precedence content =>
      have hContent := ih content List.mem_cons_self
      cases precedence <;> exact .object (by simp [hTag, isWhole_precedence, hContent])

end Rule

end GrammarShapes
