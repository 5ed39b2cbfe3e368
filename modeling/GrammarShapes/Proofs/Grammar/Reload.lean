import GrammarShapes.Proofs.Grammar.Nesting
import GrammarShapes.Proofs.Grammar.RoundTrip

set_option autoImplicit false

/-! # Grammars that are loaded

A grammar that lists its fields and one that names them are both written no deeper than they were spelled:
what is added, an empty list of extras, is nested no deeper than the rules, which no grammar goes without.
As no text is nested deeper than may be, a grammar that has been loaded in any way can be written and loaded
again.
-/

namespace GrammarShapes

open Json (Error Draft)

namespace Grammar

theorem noDeeper_readRules : Draft.NoDeeper readRules rulesJson :=
  Draft.noDeeper_asMap Rule.noDeeper_read

theorem noDeeper_readRuleList : Draft.NoDeeper readRuleList listJson :=
  Draft.noDeeper_asList Rule.noDeeper_read

theorem nesting_toJson_le {g : Grammar} {n : Nat} (hRules : (rulesJson g.rules).nesting ≤ n)
    (hExtras : (listJson g.extras).nesting ≤ n) (hExternals : (listJson g.externals).nesting ≤ n) :
    g.toJson.nesting ≤ n + 1 := by
  rw [toJson_eq, Json.nesting]
  apply Nat.succ_le_succ
  rw [Json.nestingMembers_le_iff, List.forall_mem_append, List.forall_mem_append]
  refine ⟨⟨?_, ?_⟩, ?_⟩
  · exact List.forall_mem_map.mpr fun _ _ => Nat.zero_le n
  · exact List.forall_mem_cons.mpr ⟨hRules, List.forall_mem_singleton.mpr hExtras⟩
  · unfold externalMembers
    split
    · exact List.forall_mem_nil _
    · exact List.forall_mem_singleton.mpr hExternals

theorem nesting_nil_le {d : Directory Rule} {n : Nat} (h : (rulesJson d).nesting ≤ n) :
    (listJson []).nesting ≤ n := by
  have hObject : (rulesJson d).nesting = Json.nestingMembers (d.entries.map _) + 1 := rfl
  have hEmpty : (listJson []).nesting = 1 := rfl
  omega

def Fields.nesting (fs : Fields) : Nat :=
  max (fs.rules.elim 0 fun d => (rulesJson d).nesting)
    (max (fs.extras.elim 0 fun rs => (listJson rs).nesting)
      (fs.externals.elim 0 fun rs => (listJson rs).nesting))

theorem nesting_of_readMember {fs fs' : Fields} {key : String} {d : Draft}
    (h : readMember fs key d = .ok fs') : fs'.nesting ≤ max fs.nesting d.nesting := by
  unfold readMember at h
  split at h
  · obtain ⟨name, -, h⟩ := bind_eq_ok_iff.mp h
    cases h
    exact Nat.le_max_left _ _
  split at h
  · obtain ⟨rules, hOnce, h⟩ := bind_eq_ok_iff.mp h
    cases h
    have hRules := Json.nesting_of_once noDeeper_readRules hOnce
    simp only [Fields.nesting]
    omega
  split at h
  · obtain ⟨extras, hOnce, h⟩ := bind_eq_ok_iff.mp h
    cases h
    have hExtras := Json.nesting_of_once noDeeper_readRuleList hOnce
    simp only [Fields.nesting]
    omega
  split at h
  · obtain ⟨externals, hOnce, h⟩ := bind_eq_ok_iff.mp h
    cases h
    have hExternals := Json.nesting_of_once noDeeper_readRuleList hOnce
    simp only [Fields.nesting]
    omega
  · obtain ⟨_, -, h⟩ := bind_eq_ok_iff.mp h
    cases h
    exact Nat.le_max_left _ _

theorem nesting_getD_le {rs : Option (List Rule)} {n : Nat} (hNil : (listJson []).nesting ≤ n)
    (h : (rs.elim 0 fun rs => (listJson rs).nesting) ≤ n) : (listJson (rs.getD [])).nesting ≤ n := by
  cases rs with
  | none => exact hNil
  | some rs => exact h

theorem nesting_of_ofFields {fs : Fields} {g : Grammar} (h : ofFields fs = .ok g) :
    g.toJson.nesting ≤ fs.nesting + 1 := by
  obtain ⟨rules, hRequired, h⟩ := bind_eq_ok_iff.mp h
  cases h
  have hRules : (rulesJson rules).nesting ≤ fs.nesting := by
    rw [Fields.nesting, Json.required_eq_ok_iff.mp hRequired]
    exact Nat.le_max_left _ _
  have hNil := nesting_nil_le hRules
  apply nesting_toJson_le hRules
  · apply nesting_getD_le hNil
    unfold Fields.nesting
    omega
  · apply nesting_getD_le hNil
    unfold Fields.nesting
    omega

theorem exists_of_optional {α β : Type} {d : Option Draft} {read : Draft → Except Error α} {default : α}
    {f : α → Except Error β} {b : β}
    (h : (match d with
      | some d => read d >>= f
      | none => pure default >>= f) = .ok b) :
    ∃ a, ((∃ x ∈ d, read x = .ok a) ∨ a = default) ∧ f a = .ok b := by
  cases d with
  | none => exact ⟨default, Or.inr rfl, h⟩
  | some x =>
    obtain ⟨a, hRead, h⟩ := bind_eq_ok_iff.mp h
    exact ⟨a, Or.inl ⟨x, rfl, hRead⟩, h⟩

theorem nesting_of_optional {d : Option Draft} {rs : List Rule} {n : Nat}
    (hDraft : ∀ x ∈ d, x.nesting ≤ n) (hNil : (listJson []).nesting ≤ n)
    (h : (∃ x ∈ d, readRuleList x = .ok rs) ∨ rs = []) : (listJson rs).nesting ≤ n := by
  rcases h with ⟨x, hx, hRead⟩ | rfl
  · exact Nat.le_trans (noDeeper_readRuleList x rs hRead) (hDraft x hx)
  · exact hNil

theorem nesting_of_readItems {surplus : Json.Surplus} {q : Json.ItemQueue} {g : Grammar}
    (h : readItems surplus q = .ok g) : g.toJson.nesting ≤ Draft.nestingItems q.items + 1 := by
  obtain ⟨⟨_, q₁⟩, hFirst, h⟩ := bind_eq_ok_iff.mp h
  obtain ⟨_, -, h⟩ := exists_of_optional h
  obtain ⟨⟨rules, q₂⟩, hSecond, h⟩ := bind_eq_ok_iff.mp h
  obtain ⟨⟨_, q₃⟩, hThird, h⟩ := bind_eq_ok_iff.mp h
  obtain ⟨extras, hExtras, h⟩ := exists_of_optional h
  obtain ⟨⟨_, q₄⟩, hFourth, h⟩ := bind_eq_ok_iff.mp h
  obtain ⟨externals, hExternals, h⟩ := exists_of_optional h
  obtain ⟨_, -, h⟩ := bind_eq_ok_iff.mp h
  cases h
  obtain ⟨-, hRest₁⟩ := Json.ItemQueue.nesting_of_next hFirst
  obtain ⟨hRules, hRest₂⟩ := Json.ItemQueue.nesting_of_part noDeeper_readRules hSecond
  obtain ⟨hThirdItem, hRest₃⟩ := Json.ItemQueue.nesting_of_next hThird
  obtain ⟨hFourthItem, -⟩ := Json.ItemQueue.nesting_of_next hFourth
  have hRulesLe := Nat.le_trans hRules hRest₁
  have hNil := nesting_nil_le hRulesLe
  apply nesting_toJson_le hRulesLe
  · apply nesting_of_optional _ hNil hExtras
    intro x hx
    have hItem := hThirdItem x hx
    omega
  · apply nesting_of_optional _ hNil hExternals
    intro x hx
    have hItem := hFourthItem x hx
    omega

/-- A grammar is written no deeper than it was spelled. -/
theorem nesting_of_read {surplus : Json.Surplus} {d : Draft} {g : Grammar}
    (h : read surplus d = .ok g) : g.toJson.nesting ≤ d.nesting := by
  unfold read at h
  split at h
  · obtain ⟨fs, hMembers, h⟩ := bind_eq_ok_iff.mp h
    obtain ⟨_, -, h⟩ := bind_eq_ok_iff.mp h
    have hFields := Draft.foldMembers_le Fields.nesting (fun _ _ _ _ => nesting_of_readMember) hMembers
    have hEmpty : Fields.nesting {} = 0 := rfl
    have hGrammar := nesting_of_ofFields h
    rw [Draft.nesting]
    omega
  · exact nesting_of_readItems h
  · exact absurd h Draft.refuse_ne_ok

theorem nesting_of_ofText {t : Json.Text} {g : Grammar} (h : ofText t = .ok g) :
    g.toJson.nesting ≤ Json.nestingLimit := by
  obtain ⟨g', hRead, h⟩ := bind_eq_ok_iff.mp h
  split at h
  · cases h
  · cases h
    exact Nat.le_trans (nesting_of_read hRead) (Json.Document.nesting_ofText_le t)

theorem nesting_of_ofValue {t : Json.Text} {v : Json} {g : Grammar}
    (hValue : (Json.Document.ofText t).read = .ok v) (h : ofValue v.sorted = .ok g) :
    g.toJson.nesting ≤ Json.nestingLimit := by
  obtain ⟨w, hRead, hEnd⟩ := bind_eq_ok_iff.mp hValue
  split at hEnd <;> cases hEnd
  have hText := Json.Document.nesting_ofText_le t
  have hDraft := Draft.nesting_of_read _ v hRead
  have hSorted := Json.nesting_sorted_le v
  have hGrammar := nesting_of_read h
  rw [Draft.nesting_ofJson] at hGrammar
  omega

theorem ofText_of_outcome_loading {x : Except Error Grammar} {g : Grammar}
    (h : (loading x).outcome = .ok g) : x = .ok g := by
  cases x with
  | error e => cases h
  | ok g' =>
    cases h
    rfl

/-- A grammar that has been loaded from a text, from bytes, or from the value of a text has a text of its
own with at most 127 arrays and objects open at once, and is loaded again from it. -/
theorem outcome_load_toText_of_outcome_load {g : Grammar}
    (h : (∃ source, (load source).outcome = .ok g) ∨ (∃ bytes, (loadBytes bytes).outcome = .ok g) ∨
      ∃ source, (loadValueText source).outcome = .ok g) :
    (Json.Text.ofString g.toText).mostOpen ≤ 127 ∧ (load g.toText).outcome = .ok g := by
  have hNesting : g.toJson.nesting ≤ Json.roomAt 0 := by
    rcases h with ⟨source, h⟩ | ⟨bytes, h⟩ | ⟨source, h⟩
    · exact nesting_of_ofText (ofText_of_outcome_loading h)
    · exact nesting_of_ofText (ofText_of_outcome_loading h)
    · unfold loadValueText at h
      split at h
      · rename_i v hValue
        exact nesting_of_ofValue hValue (ofText_of_outcome_loading h)
      · cases h
  constructor
  · rw [mostOpen_toText]
    exact hNesting
  · rw [load, ofText_toText, Json.limitedRead, Json.limited, if_pos hNesting]
    rfl

/-- The rules `b` and `a`, where `b` is given twice, an object and a list stand for rules, and a tag inside a
rule is given by its number. -/
def listedText : String :=
  "[null, \x7b\"b\": [\"BLANK\"], \"a\": \x7b\"content\": [1, \"x\"], \"type\": \"REPEAT\", \"more\": 0\x7d, " ++
    "\"b\": [\"SYMBOL\", \"a\"]\x7d]"

def listedGrammar : Grammar :=
  { rules := .ofEntries [("b", .symbol "a"), ("a", .zeroOrMore (.literal "x"))] }

theorem outcome_load_listedGrammar :
    (load listedText).outcome = .ok listedGrammar ∧
      (Json.Text.ofString listedGrammar.toText).mostOpen ≤ 127 ∧
      (load listedGrammar.toText).outcome = .ok listedGrammar := by
  have hSome : (load listedText).outcome.toOption = some listedGrammar := by decide +kernel
  have hLoad : (load listedText).outcome = .ok listedGrammar := eq_ok_of_toOption hSome
  exact ⟨hLoad, outcome_load_toText_of_outcome_load (Or.inl ⟨listedText, hLoad⟩)⟩

end Grammar

end GrammarShapes
