import GrammarShapes.Grammar.Reading
import GrammarShapes.Grammar.Writing
import GrammarShapes.Proofs.Json.Readers

set_option autoImplicit false

/-! # The nesting of rules

However a rule is spelled, the value that is written for it is nested no deeper than what it was read from.
Members and items fill fields in the same way, so that `Fills` says once what a value can do to the fields
of a rule, and objects and lists are then read by the same argument.
-/

namespace GrammarShapes

open Json (Draft)

theorem Precedence.nesting_toJson (p : Precedence) : p.toJson.nesting = 0 := by
  cases p <;> rfl

namespace Rule

def innerNesting : Rule → Nat
  | .sequence members => (Json.array (allToJson members)).nesting
  | .choice members => (Json.array (allToJson members)).nesting
  | .alias content _ _ => content.toJson.nesting
  | .field _ content => content.toJson.nesting
  | .zeroOrMore content => content.toJson.nesting
  | .oneOrMore content => content.toJson.nesting
  | .ranked _ content => content.toJson.nesting
  | .rankedLeft _ content => content.toJson.nesting
  | .blank => 0
  | .literal _ => 0
  | .pattern _ _ => 0
  | .symbol _ => 0

theorem nesting_toJson (r : Rule) : r.toJson.nesting = r.innerNesting + 1 := by
  cases r with
  | pattern regex flags => cases flags <;> rfl
  | ranked precedence content | rankedLeft precedence content =>
    cases precedence <;>
      simp [toJson, tagMember, innerNesting, Json.nesting, Json.nestingMembers, Precedence.nesting_toJson]
  | _ => simp [toJson, tagMember, innerNesting, Json.nesting, Json.nestingMembers]

end Rule

namespace RuleFields

/-- How deep the fields are nested when they are written. Only rules are written as arrays or objects. -/
def nesting (fs : RuleFields) : Nat :=
  max (fs.content.elim 0 fun r => r.toJson.nesting)
    (fs.members.elim 0 fun rs => (Json.array (Rule.allToJson rs)).nesting)

theorem nesting_putPlain {fs fs' : RuleFields} {f : RuleField} {v : Json}
    (h : fs.putPlain f v = .ok fs') : fs'.nesting = fs.nesting := by
  cases f with
  | content | members =>
    cases h
    rfl
  | text | flags | name | named | precedence =>
    obtain ⟨_, -, h⟩ := bind_eq_ok_iff.mp h
    cases h
    rfl

theorem nesting_content_le {fs : RuleFields} {r : Rule} (h : fs.content = some r) :
    r.toJson.nesting ≤ fs.nesting := by
  rw [nesting, h]
  exact Nat.le_max_left _ _

theorem nesting_members_le {fs : RuleFields} {rs : List Rule} (h : fs.members = some rs) :
    (Json.array (Rule.allToJson rs)).nesting ≤ fs.nesting := by
  rw [nesting, h]
  exact Nat.le_max_right _ _

theorem innerNesting_le_of_build {fs : RuleFields} {tag : Tag} {r : Rule} (h : fs.build tag = .ok r) :
    r.innerNesting ≤ fs.nesting := by
  cases tag with
  | blank =>
    cases h
    exact Nat.zero_le _
  | literal | pattern | symbol =>
    obtain ⟨_, -, h⟩ := bind_eq_ok_iff.mp h
    cases h
    exact Nat.zero_le _
  | «alias» =>
    obtain ⟨content, hContent, h⟩ := bind_eq_ok_iff.mp h
    obtain ⟨_, -, h⟩ := bind_eq_ok_iff.mp h
    obtain ⟨_, -, h⟩ := bind_eq_ok_iff.mp h
    cases h
    exact nesting_content_le (Json.required_eq_ok_iff.mp hContent)
  | field =>
    obtain ⟨_, -, h⟩ := bind_eq_ok_iff.mp h
    obtain ⟨content, hContent, h⟩ := bind_eq_ok_iff.mp h
    cases h
    exact nesting_content_le (Json.required_eq_ok_iff.mp hContent)
  | sequence | choice =>
    obtain ⟨members, hMembers, h⟩ := bind_eq_ok_iff.mp h
    cases h
    exact nesting_members_le (Json.required_eq_ok_iff.mp hMembers)
  | zeroOrMore | oneOrMore | ranked | rankedLeft =>
    obtain ⟨content, hContent, h⟩ := bind_eq_ok_iff.mp h
    cases h
    exact nesting_content_le (Json.required_eq_ok_iff.mp hContent)

/-- A value fills a field: it is read as a rule, as a list of rules, or as something that holds no rule. -/
inductive Fills (f : RuleField) (v : Json) (fs : RuleFields) : RuleFields → Prop
  | content {r : Rule} (hField : f = .content) (hRead : Rule.ofJson v = .ok r) :
      Fills f v fs { fs with content := some r }
  | members {vs : List Json} {rs : List Rule} (hField : f = .members) (hValue : v = .array vs)
      (hRead : Rule.allOfJson vs = .ok rs) : Fills f v fs { fs with members := some rs }
  | plain {fs' : RuleFields} (hRead : fs.putPlain f v = .ok fs') : Fills f v fs fs'

end RuleFields

namespace Rule

variable {tag : Tag} {fs fs' : RuleFields} {v : Json}

theorem exists_fills_of_ofMembers {key : String} {rest : List (String × Json)}
    (h : ofMembers tag fs ((key, v) :: rest) = .ok fs') :
    ofMembers tag fs rest = .ok fs' ∨
      ∃ f filled, RuleFields.Fills f v fs filled ∧ ofMembers tag filled rest = .ok fs' := by
  rw [ofMembers] at h
  split at h
  · exact Or.inl h
  · right
    split at h
    · cases h
    · split at h
      · obtain ⟨r, hRead, h⟩ := bind_eq_ok_iff.mp h
        exact ⟨.content, _, .content rfl hRead, h⟩
      · obtain ⟨rs, hRead, h⟩ := bind_eq_ok_iff.mp h
        exact ⟨.members, _, .members rfl rfl hRead, h⟩
      · cases h
      · obtain ⟨filled, hRead, h⟩ := bind_eq_ok_iff.mp h
        exact ⟨_, filled, .plain hRead, h⟩

theorem exists_fills_of_ofItems {i : Nat} {fields : List RuleField} {rest : List Json}
    (h : ofItems tag i fields fs (v :: rest) = .ok fs') :
    ∃ f others filled, RuleFields.Fills f v fs filled ∧
      ofItems tag (i + 1) others filled rest = .ok fs' := by
  rw [ofItems.eq_def] at h
  dsimp only at h
  split at h
  · cases h
  · split at h
    · obtain ⟨r, hRead, h⟩ := bind_eq_ok_iff.mp h
      exact ⟨.content, _, _, .content rfl hRead, h⟩
    · obtain ⟨rs, hRead, h⟩ := bind_eq_ok_iff.mp h
      exact ⟨.members, _, _, .members rfl rfl hRead, h⟩
    · cases h
    · obtain ⟨filled, hRead, h⟩ := bind_eq_ok_iff.mp h
      exact ⟨_, _, filled, .plain hRead, h⟩

/-- Whether the rule that a value stands for, if any, is written no deeper than the value. -/
def NoDeeper (v : Json) : Prop :=
  ∀ r, ofJson v = .ok r → r.toJson.nesting ≤ v.nesting

theorem nestingItems_of_allOfJson {vs : List Json} {rs : List Rule} (hEach : ∀ v ∈ vs, NoDeeper v)
    (h : allOfJson vs = .ok rs) : Json.nestingItems (allToJson rs) ≤ Json.nestingItems vs := by
  induction vs generalizing rs with
  | nil =>
    cases h
    exact Nat.le_refl _
  | cons v vs ih =>
    obtain ⟨hHead, hTail⟩ := List.forall_mem_cons.mp hEach
    obtain ⟨r, hRead, h⟩ := bind_eq_ok_iff.mp h
    obtain ⟨rest, hRest, h⟩ := bind_eq_ok_iff.mp h
    cases h
    have hFirst := hHead r hRead
    have hOthers := ih hTail hRest
    rw [allToJson, Json.nestingItems, Json.nestingItems]
    omega

theorem nesting_of_fills {f : RuleField} (hEach : ∀ w : Json, sizeOf w ≤ sizeOf v → NoDeeper w)
    (h : RuleFields.Fills f v fs fs') : fs'.nesting ≤ max fs.nesting v.nesting := by
  cases h with
  | @content r hField hRead =>
    have hRule := hEach v (Nat.le_refl _) r hRead
    simp only [RuleFields.nesting, Option.elim_some]
    omega
  | @members vs rs hField hValue hRead =>
    subst hValue
    -- the members stand in the array, and so the hypothesis is needed for them and not for the array
    have hItems := nestingItems_of_allOfJson (fun w hw => hEach w ?_) hRead
    · simp only [RuleFields.nesting, Option.elim_some, Json.nesting]
      omega
    · have hSize := List.sizeOf_lt_of_mem hw
      rw [Json.array.sizeOf_spec]
      omega
  | plain hRead =>
    rw [RuleFields.nesting_putPlain hRead]
    exact Nat.le_max_left _ _

theorem nesting_of_ofMembers {ms : List (String × Json)}
    (hEach : ∀ m ∈ ms, ∀ w : Json, sizeOf w ≤ sizeOf m.2 → NoDeeper w)
    (h : ofMembers tag fs ms = .ok fs') : fs'.nesting ≤ max fs.nesting (Json.nestingMembers ms) := by
  induction ms generalizing fs with
  | nil =>
    rw [ofMembers] at h
    cases h
    exact Nat.le_max_left _ _
  | cons m ms ih =>
    obtain ⟨hHead, hTail⟩ := List.forall_mem_cons.mp hEach
    rw [Json.nestingMembers]
    rcases exists_fills_of_ofMembers h with h | ⟨f, filled, hFills, h⟩
    · have hRest := ih hTail h
      omega
    · have hFirst := nesting_of_fills hHead hFills
      have hRest := ih hTail h
      omega

theorem nesting_of_ofItems {i : Nat} {fields : List RuleField} {vs : List Json}
    (hEach : ∀ v ∈ vs, ∀ w : Json, sizeOf w ≤ sizeOf v → NoDeeper w)
    (h : ofItems tag i fields fs vs = .ok fs') : fs'.nesting ≤ max fs.nesting (Json.nestingItems vs) := by
  induction vs generalizing i fields fs with
  | nil =>
    rw [ofItems] at h
    obtain ⟨_, -, h⟩ := bind_eq_ok_iff.mp h
    cases h
    exact Nat.le_max_left _ _
  | cons v vs ih =>
    obtain ⟨hHead, hTail⟩ := List.forall_mem_cons.mp hEach
    obtain ⟨f, others, filled, hFills, h⟩ := exists_fills_of_ofItems h
    have hFirst := nesting_of_fills hHead hFills
    have hRest := ih hTail h
    rw [Json.nestingItems]
    omega

theorem nesting_of_build {n : Nat} {r : Rule} (hFields : fs.nesting ≤ max (RuleFields.nesting {}) n)
    (hBuild : fs.build tag = .ok r) : r.toJson.nesting ≤ n + 1 := by
  have hInner := RuleFields.innerNesting_le_of_build hBuild
  have hEmpty : RuleFields.nesting {} = 0 := rfl
  rw [nesting_toJson]
  omega

theorem nesting_of_members {ms : List (String × Json)} {r : Rule}
    (hEach : ∀ m ∈ ms, ∀ w : Json, sizeOf w ≤ sizeOf m.2 → NoDeeper w)
    (h : (ofMembers tag {} ms >>= fun fs => fs.build tag) = .ok r) :
    r.toJson.nesting ≤ Json.nestingMembers ms + 1 := by
  obtain ⟨fs, hFields, hBuild⟩ := bind_eq_ok_iff.mp h
  exact nesting_of_build (nesting_of_ofMembers hEach hFields) hBuild

theorem nesting_of_items {vs : List Json} {r : Rule}
    (hEach : ∀ v ∈ vs, ∀ w : Json, sizeOf w ≤ sizeOf v → NoDeeper w)
    (h : (ofItems tag 0 tag.fields {} vs >>= fun fs => fs.build tag) = .ok r) :
    r.toJson.nesting ≤ Json.nestingItems vs + 1 := by
  obtain ⟨fs, hFields, hBuild⟩ := bind_eq_ok_iff.mp h
  exact nesting_of_build (nesting_of_ofItems hEach hFields) hBuild

theorem noDeeper (v : Json) : NoDeeper v := by
  -- by size, as the members of a rule stand two levels below the value of the rule
  induction hSize : sizeOf v using Nat.strongRecOn generalizing v with
  | ind n ih =>
    subst hSize
    intro r h
    cases v with
    | object ms =>
      rw [ofJson] at h
      obtain ⟨_, -, h⟩ := bind_eq_ok_iff.mp h
      obtain ⟨tag, -, h⟩ := bind_eq_ok_iff.mp h
      refine nesting_of_members (fun m hm w hw => ih (sizeOf w) ?_ w rfl) h
      obtain ⟨key, v⟩ := m
      have hMember := List.sizeOf_lt_of_mem hm
      have hValue : sizeOf w ≤ sizeOf v := hw
      rw [Prod.mk.sizeOf_spec] at hMember
      rw [Json.object.sizeOf_spec]
      omega
    | array vs =>
      cases vs with
      | nil =>
        rw [ofJson] at h
        cases h
      | cons first vs =>
        rw [ofJson] at h
        obtain ⟨tag, -, h⟩ := bind_eq_ok_iff.mp h
        have hItems := nesting_of_items (fun v hv w hw => ih (sizeOf w) ?_ w rfl) h
        · exact Nat.le_trans hItems (Nat.succ_le_succ (Nat.le_max_right _ _))
        · have hItem := List.sizeOf_lt_of_mem hv
          rw [Json.array.sizeOf_spec, List.cons.sizeOf_spec]
          omega
    | null | boolean _ | number _ | string _ =>
      rw [ofJson] at h
      cases h

theorem noDeeper_read : Draft.NoDeeper read toJson := by
  intro d r h
  obtain ⟨⟨tag, content⟩, hContent, h⟩ := bind_eq_ok_iff.mp h
  have hLess := Json.Tagging.nesting_of_read hContent
  cases content with
  | members ms => exact Nat.le_trans (nesting_of_members (fun _ _ w _ => noDeeper w) h) hLess
  | items vs => exact Nat.le_trans (nesting_of_items (fun _ _ w _ => noDeeper w) h) hLess

end Rule

end GrammarShapes
