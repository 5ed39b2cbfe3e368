import GrammarShapes.Collection.Directory
import GrammarShapes.Json.Reading
import GrammarShapes.Proofs.Json.Nesting

set_option autoImplicit false

/-! # Readers that go no deeper

The readers of lists, of maps and of tagged values give nothing that is written deeper than what they read,
as long as the readers of the parts do not. Members and items that are passed over count for nothing.
-/

namespace GrammarShapes.Json

namespace Draft

/-- Whether what the reader gives is written no deeper than what it was read from. -/
def NoDeeper {α : Type} (read : Draft → Except Error α) (toJson : α → Json) : Prop :=
  ∀ d a, read d = .ok a → (toJson a).nesting ≤ d.nesting

theorem orFault_eq_ok_iff {α : Type} {x : Except Fault α} {a : α} : orFault x = .ok a ↔ x = .ok a := by
  cases x with
  | error f => exact ⟨nofun, nofun⟩
  | ok b => exact ⟨fun h => by cases h; rfl, fun h => by cases h; rfl⟩

theorem noDeeper_value : NoDeeper value id := by
  intro d v h
  exact Nat.le_of_eq (nesting_of_read d v (orFault_eq_ok_iff.mp h))

theorem refuse_ne_ok {α : Type} {expected : String} {d : Draft} {a : α} : d.refuse expected ≠ .ok a := by
  cases d with
  | number x | string x => cases x <;> nofun
  | null | boolean _ | array _ _ | object _ _ | broken _ _ => nofun

section Lists

variable {α σ : Type} {read : Draft → Except Error α} {toJson : α → Json}

theorem exists_items_of_asList {d : Draft} {as : List α} (h : asList read d = .ok as) :
    ∃ items ending, d = .array items ending ∧ readEach read items = .ok as := by
  unfold asList at h
  split at h
  · obtain ⟨bs, hItems, h⟩ := bind_eq_ok_iff.mp h
    obtain ⟨_, -, h⟩ := bind_eq_ok_iff.mp h
    cases h
    exact ⟨_, _, rfl, hItems⟩
  · exact absurd h refuse_ne_ok

theorem exists_members_of_asMap {step : σ → String → Draft → Except Error σ} {start s : σ} {d : Draft}
    (h : asMap step start d = .ok s) :
    ∃ members ending, d = .object members ending ∧ foldMembers step start members = .ok s := by
  unfold asMap at h
  split at h
  · obtain ⟨t, hMembers, h⟩ := bind_eq_ok_iff.mp h
    obtain ⟨_, -, h⟩ := bind_eq_ok_iff.mp h
    cases h
    exact ⟨_, _, rfl, hMembers⟩
  · exact absurd h refuse_ne_ok

theorem nestingItems_of_readEach (hRead : NoDeeper read toJson) {items : List Draft} {as : List α}
    (h : readEach read items = .ok as) :
    Json.nestingItems (as.map toJson) ≤ nestingItems items := by
  induction items generalizing as with
  | nil =>
    cases h
    exact Nat.le_refl _
  | cons d items ih =>
    obtain ⟨a, hHead, h⟩ := bind_eq_ok_iff.mp h
    obtain ⟨rest, hTail, h⟩ := bind_eq_ok_iff.mp h
    cases h
    have hFirst := hRead d a hHead
    have hRest := ih hTail
    rw [List.map_cons, Json.nestingItems, nestingItems]
    omega

theorem noDeeper_asList (hRead : NoDeeper read toJson) :
    NoDeeper (asList read) fun as => .array (as.map toJson) := by
  intro d as h
  obtain ⟨items, ending, rfl, hItems⟩ := exists_items_of_asList h
  exact Nat.succ_le_succ (nestingItems_of_readEach hRead hItems)

/-- A measure that no member raises above its own nesting is not raised above theirs by all members. -/
theorem foldMembers_le {step : σ → String → Draft → Except Error σ} (measure : σ → Nat)
    (hStep : ∀ s name d s', step s name d = .ok s' → measure s' ≤ max (measure s) d.nesting)
    {members : List (Except Fault String × Draft)} {s s' : σ} (h : foldMembers step s members = .ok s') :
    measure s' ≤ max (measure s) (nestingMembers members) := by
  induction members generalizing s with
  | nil =>
    cases h
    exact Nat.le_max_left _ _
  | cons m members ih =>
    obtain ⟨name, d⟩ := m
    obtain ⟨name, -, h⟩ := bind_eq_ok_iff.mp h
    obtain ⟨t, hHead, h⟩ := bind_eq_ok_iff.mp h
    have hFirst := hStep s name d t hHead
    have hRest := ih h
    rw [nestingMembers]
    omega

theorem nestingMembers_map_le_iff {entries : List (String × α)} {n : Nat} :
    Json.nestingMembers (entries.map fun e => (e.1, toJson e.2)) ≤ n ↔
      ∀ e ∈ entries, (toJson e.2).nesting ≤ n := by
  rw [Json.nestingMembers_le_iff, List.forall_mem_map]

theorem nestingMembers_insert_le (toJson : α → Json) (d : Directory α) (name : String) (a : α) :
    Json.nestingMembers ((d.insert name a).entries.map fun e => (e.1, toJson e.2)) ≤
      max (Json.nestingMembers (d.entries.map fun e => (e.1, toJson e.2))) (toJson a).nesting := by
  have hOld : ∀ e ∈ d.entries, (toJson e.2).nesting ≤
      Json.nestingMembers (d.entries.map fun e => (e.1, toJson e.2)) :=
    nestingMembers_map_le_iff.mp (Nat.le_refl _)
  rw [nestingMembers_map_le_iff]
  intro e he
  rcases Directory.mem_entries_insert he with rfl | he
  · exact Nat.le_max_right _ _
  · exact Nat.le_trans (hOld e he) (Nat.le_max_left _ _)

theorem noDeeper_asMap (hRead : NoDeeper read toJson) :
    NoDeeper (asMap (fun d name x => return d.insert name (← read x)) .empty)
      fun d : Directory α => .object (d.entries.map fun e => (e.1, toJson e.2)) := by
  intro d a h
  obtain ⟨members, ending, rfl, hMembers⟩ := exists_members_of_asMap h
  have hFold := foldMembers_le
    (fun d : Directory α => Json.nestingMembers (d.entries.map fun e => (e.1, toJson e.2))) ?_ hMembers
  · exact Nat.succ_le_succ (Nat.le_trans hFold (Nat.le_of_eq (Nat.zero_max _)))
  · intro d name x d' hInsert
    obtain ⟨b, hValue, hInsert⟩ := bind_eq_ok_iff.mp hInsert
    cases hInsert
    have hNew := nestingMembers_insert_le toJson d name b
    have hValueLe := hRead x b hValue
    omega

end Lists

end Draft

def Content.nesting : Content → Nat
  | .members ms => nestingMembers ms
  | .items vs => nestingItems vs

namespace Tagging

variable {τ : Type} {t : Tagging τ} {tag : τ}

theorem nestingMembers_of_readMembers {members : List (Except Fault String × Draft)}
    {before after : Option τ} {ms : List (String × Json)}
    (h : t.readMembers before members = .ok (after, ms)) :
    nestingMembers ms ≤ Draft.nestingMembers members := by
  induction members generalizing before ms with
  | nil =>
    cases h
    exact Nat.le_refl _
  | cons m members ih =>
    obtain ⟨name, d⟩ := m
    rw [Draft.nestingMembers]
    obtain ⟨name, -, h⟩ := bind_eq_ok_iff.mp h
    split at h
    · split at h
      · cases h
      · obtain ⟨tag, -, h⟩ := bind_eq_ok_iff.mp h
        exact Nat.le_trans (ih h) (Nat.le_max_right _ _)
    · obtain ⟨v, hValue, h⟩ := bind_eq_ok_iff.mp h
      obtain ⟨⟨_, rest⟩, hRest, h⟩ := bind_eq_ok_iff.mp h
      cases h
      have hFirst : v.nesting ≤ d.nesting := Draft.noDeeper_value d v hValue
      have hOthers := ih hRest
      rw [nestingMembers]
      omega

theorem nesting_of_read {d : Draft} {content : Content} (h : t.read d = .ok (tag, content)) :
    content.nesting + 1 ≤ d.nesting := by
  unfold read at h
  split at h
  · obtain ⟨⟨found, ms⟩, hMembers, h⟩ := bind_eq_ok_iff.mp h
    obtain ⟨_, -, h⟩ := bind_eq_ok_iff.mp h
    obtain ⟨_, -, h⟩ := bind_eq_ok_iff.mp h
    cases h
    exact Nat.succ_le_succ (nestingMembers_of_readMembers hMembers)
  · obtain ⟨_, -, h⟩ := bind_eq_ok_iff.mp h
    cases h
  · rename_i first rest ending
    obtain ⟨_, -, h⟩ := bind_eq_ok_iff.mp h
    obtain ⟨vs, hItems, h⟩ := bind_eq_ok_iff.mp h
    obtain ⟨_, -, h⟩ := bind_eq_ok_iff.mp h
    cases h
    have hRest := Draft.nestingItems_of_readEach Draft.noDeeper_value hItems
    rw [List.map_id] at hRest
    exact Nat.succ_le_succ (Nat.le_trans hRest (Nat.le_max_right _ _))
  · exact absurd h Draft.refuse_ne_ok

end Tagging

theorem required_eq_ok_iff {α : Type} {field : String} {v : Option α} {a : α} :
    required field v = .ok a ↔ v = some a := by
  cases v <;> simp [required]

theorem nesting_of_once {α : Type} {field : String} {read : Draft → Except Error α} {toJson : α → Json}
    {old new : Option α} {d : Draft} (hRead : Draft.NoDeeper read toJson)
    (h : once field old (read d) = .ok new) : (new.elim 0 fun a => (toJson a).nesting) ≤ d.nesting := by
  unfold once at h
  split at h
  · cases h
  · cases hValue : read d with
    | error e =>
      rw [hValue] at h
      cases h
    | ok a =>
      rw [hValue] at h
      cases h
      exact hRead d a hValue

namespace ItemQueue

variable {q rest : ItemQueue}

theorem nesting_of_next {d : Option Draft} (h : q.next = .ok (d, rest)) :
    (∀ x ∈ d, x.nesting ≤ Draft.nestingItems q.items) ∧
      Draft.nestingItems rest.items ≤ Draft.nestingItems q.items := by
  unfold next at h
  split at h
  · rename_i first others hItems
    cases h
    rw [hItems, Draft.nestingItems]
    constructor
    · intro x hx
      cases hx
      exact Nat.le_max_left _ _
    · exact Nat.le_max_right _ _
  · obtain ⟨_, -, h⟩ := bind_eq_ok_iff.mp h
    cases h
    exact ⟨nofun, Nat.le_refl _⟩

theorem nesting_of_part {α : Type} {read : Draft → Except Error α} {toJson : α → Json} {i : Nat}
    {expected : String} {a : α} (hRead : Draft.NoDeeper read toJson)
    (h : q.part read i expected = .ok (a, rest)) :
    (toJson a).nesting ≤ Draft.nestingItems q.items ∧
      Draft.nestingItems rest.items ≤ Draft.nestingItems q.items := by
  obtain ⟨⟨d, others⟩, hNext, h⟩ := bind_eq_ok_iff.mp h
  obtain ⟨hFirst, hOthers⟩ := nesting_of_next hNext
  cases d with
  | none => cases h
  | some d =>
    obtain ⟨b, hValue, h⟩ := bind_eq_ok_iff.mp h
    cases h
    exact ⟨Nat.le_trans (hRead d a hValue) (hFirst d rfl), hOthers⟩

end ItemQueue

end GrammarShapes.Json
