import GrammarShapes.Proofs.Json.Readers
import Mathlib.Data.List.Forall2

set_option autoImplicit false

/-! # Whole drafts

A draft can be read as a value just where it is the draft of that value: nothing in it breaks off. A tagged
value is read together with everything in it, and so it is whole wherever its tag can be read; a member
that is passed over need not be.
-/

namespace GrammarShapes.Json

theorem ArrayEnd.asked_eq_none_iff {ending : ArrayEnd} : ending.asked = none ↔ ending = .closed := by
  cases ending <;> simp [asked]

theorem ObjectEnd.asked_eq_none_iff {ending : ObjectEnd} : ending.asked = none ↔ ending = .closed := by
  cases ending <;> simp [asked]

theorem checkEnd_eq_ok_iff {fault : Option Fault} {u : Unit} : checkEnd fault = .ok u ↔ fault = none := by
  cases fault <;> simp [checkEnd]

namespace Draft

theorem ofItems_eq_map (items : List Json) : ofItems items = items.map ofJson := by
  induction items with
  | nil => rfl
  | cons v rest ih => rw [ofItems, ih, List.map_cons]

theorem ofMembers_eq_map (members : List (String × Json)) :
    ofMembers members = members.map fun m => (.ok m.1, ofJson m.2) := by
  induction members with
  | nil => rfl
  | cons m rest ih => rw [ofMembers, ih, List.map_cons]

mutual

theorem eq_ofJson_of_read : ∀ {d : Draft} {v : Json}, d.read = .ok v → d = ofJson v
  | .null, _, h => by cases h; rfl
  | .boolean b, _, h => by cases h; rfl
  | .number (.ok n), _, h => by cases h; rfl
  | .string (.ok s), _, h => by cases h; rfl
  | .array items ending, _, h => by
      obtain ⟨vs, hItems, h⟩ := bind_eq_ok_iff.mp h
      split at h
      · cases h
      · rename_i hEnd
        cases h
        rw [eq_ofItems_of_readItems hItems, ArrayEnd.asked_eq_none_iff.mp hEnd, ofJson]
  | .object members ending, _, h => by
      obtain ⟨ms, hMembers, h⟩ := bind_eq_ok_iff.mp h
      split at h
      · cases h
      · rename_i hEnd
        cases h
        rw [eq_ofMembers_of_readMembers hMembers, ObjectEnd.asked_eq_none_iff.mp hEnd, ofJson]

theorem eq_ofItems_of_readItems : ∀ {items : List Draft} {vs : List Json},
    readItems items = .ok vs → items = ofItems vs
  | [], _, h => by cases h; rfl
  | d :: rest, _, h => by
      obtain ⟨v, hHead, h⟩ := bind_eq_ok_iff.mp h
      obtain ⟨vs, hTail, h⟩ := bind_eq_ok_iff.mp h
      cases h
      rw [eq_ofJson_of_read hHead, eq_ofItems_of_readItems hTail, ofItems]

theorem eq_ofMembers_of_readMembers : ∀ {members : List (Except Fault String × Draft)}
    {ms : List (String × Json)}, readMembers members = .ok ms → members = ofMembers ms
  | [], _, h => by cases h; rfl
  | (name, d) :: rest, _, h => by
      obtain ⟨key, hName, hValue⟩ := bind_eq_ok_iff.mp h
      obtain ⟨v, hHead, hMembers⟩ := bind_eq_ok_iff.mp hValue
      obtain ⟨ms, hTail, hSame⟩ := bind_eq_ok_iff.mp hMembers
      cases hSame
      rw [hName, eq_ofJson_of_read hHead, eq_ofMembers_of_readMembers hTail, ofMembers]

end

theorem read_eq_ok_iff {d : Draft} {v : Json} : d.read = .ok v ↔ d = ofJson v :=
  ⟨eq_ofJson_of_read, fun h => h ▸ read_ofJson v⟩

theorem value_eq_ok_iff {d : Draft} {v : Json} : d.value = .ok v ↔ d = ofJson v :=
  orFault_eq_ok_iff.trans read_eq_ok_iff

theorem ofJson_injective {v w : Json} (h : ofJson v = ofJson w) : v = w := by
  have hRead := read_ofJson v
  rw [h, read_ofJson w] at hRead
  exact (Except.ok.inj hRead).symm

mutual

theorem passed_ofJson : ∀ v : Json, (ofJson v).passed = none
  | .null => rfl
  | .boolean _ => rfl
  | .number _ => rfl
  | .string _ => rfl
  | .array items => by
      rw [ofJson, passed, passedItems_ofItems items]
      rfl
  | .object members => by
      rw [ofJson, passed, passedMembers_ofMembers members]
      rfl

theorem passedItems_ofItems : ∀ items : List Json, passedItems (ofItems items) = none
  | [] => rfl
  | v :: rest => by
      rw [ofItems, passedItems, passed_ofJson v, passedItems_ofItems rest]
      rfl

theorem passedMembers_ofMembers : ∀ members : List (String × Json), passedMembers (ofMembers members) = none
  | [] => rfl
  | (_, v) :: rest => by
      rw [ofMembers, passedMembers, passed_ofJson v, passedMembers_ofMembers rest]
      rfl

end

theorem pass_ofJson (v : Json) : (ofJson v).pass = .ok () := by
  rw [pass, passed_ofJson]
  rfl

theorem asString_eq_ok_iff {expected : String} {d : Draft} {s : String} :
    d.asString expected = .ok s ↔ d = .string (.ok s) := by
  constructor
  · intro h
    unfold asString at h
    split at h
    · rw [orFault_eq_ok_iff.mp h]
    · exact absurd h refuse_ne_ok
  · rintro rfl
    rfl

def ReadsWhole {α : Type} (read : Draft → Except Error α) : Prop :=
  ∀ d a, read d = .ok a → ∃ v, d = ofJson v

theorem readsWhole_value : ReadsWhole value :=
  fun _ v h => ⟨v, value_eq_ok_iff.mp h⟩

section Lists

variable {α : Type} {read : Draft → Except Error α}

theorem readEach_eq_ok_iff (hWhole : ReadsWhole read) {items : List Draft} {as : List α} :
    readEach read items = .ok as ↔
      ∃ vs, items = ofItems vs ∧ List.Forall₂ (fun v a => read (ofJson v) = .ok a) vs as := by
  induction items generalizing as with
  | nil =>
    constructor
    · intro h
      cases h
      exact ⟨[], rfl, .nil⟩
    · rintro ⟨vs, hItems, hRead⟩
      cases vs with
      | nil =>
        cases hRead
        rfl
      | cons v vs => cases hItems
  | cons d items ih =>
    constructor
    · intro h
      obtain ⟨a, hHead, h⟩ := bind_eq_ok_iff.mp h
      obtain ⟨rest, hTail, h⟩ := bind_eq_ok_iff.mp h
      cases h
      obtain ⟨v, rfl⟩ := hWhole d a hHead
      obtain ⟨vs, rfl, hRest⟩ := ih.mp hTail
      exact ⟨v :: vs, rfl, .cons hHead hRest⟩
    · rintro ⟨vs, hItems, hRead⟩
      cases hRead with
      | nil => cases hItems
      | cons hHead hTail =>
        obtain ⟨rfl, hRest⟩ := List.cons.inj hItems
        exact bind_eq_ok_iff.mpr ⟨_, hHead, bind_eq_ok_iff.mpr ⟨_, ih.mpr ⟨_, hRest, hTail⟩, rfl⟩⟩

theorem asList_eq_ok_iff (hWhole : ReadsWhole read) {d : Draft} {as : List α} :
    asList read d = .ok as ↔
      ∃ vs, d = ofJson (.array vs) ∧ List.Forall₂ (fun v a => read (ofJson v) = .ok a) vs as := by
  constructor
  · intro h
    unfold asList at h
    split at h
    · obtain ⟨bs, hItems, h⟩ := bind_eq_ok_iff.mp h
      obtain ⟨_, hEnd, h⟩ := bind_eq_ok_iff.mp h
      cases h
      obtain ⟨vs, rfl, hRead⟩ := (readEach_eq_ok_iff hWhole).mp hItems
      have hClosed := ArrayEnd.asked_eq_none_iff.mp (checkEnd_eq_ok_iff.mp hEnd)
      exact ⟨vs, by rw [hClosed, ofJson], hRead⟩
    · exact absurd h refuse_ne_ok
  · rintro ⟨vs, rfl, hRead⟩
    rw [ofJson, asList, (readEach_eq_ok_iff hWhole).mpr ⟨vs, rfl, hRead⟩]
    rfl

/-- Members that are inserted into a directory one by one are all whole, and each is read. -/
theorem foldMembers_insert_eq_ok_iff (hWhole : ReadsWhole read)
    {members : List (Except Fault String × Draft)} {before after : Directory α} :
    foldMembers (fun d name x => return d.insert name (← read x)) before members = .ok after ↔
      ∃ (ms : List (String × Json)) (entries : List (String × α)), members = ofMembers ms ∧
        List.Forall₂ (fun m e => m.1 = e.1 ∧ read (ofJson m.2) = .ok e.2) ms entries ∧
        after = entries.foldl (fun d e => d.insert e.1 e.2) before := by
  induction members generalizing before with
  | nil =>
    constructor
    · intro h
      cases h
      exact ⟨[], [], rfl, .nil, rfl⟩
    · rintro ⟨ms, entries, hMembers, hRead, rfl⟩
      cases hRead with
      | nil => rfl
      | cons _ _ => cases hMembers
  | cons m members ih =>
    obtain ⟨name, x⟩ := m
    constructor
    · intro h
      obtain ⟨key, hName, hValue⟩ := bind_eq_ok_iff.mp h
      obtain ⟨d, hInsert, hMembers⟩ := bind_eq_ok_iff.mp hValue
      obtain ⟨a, hRead, hSame⟩ := bind_eq_ok_iff.mp hInsert
      cases hSame
      obtain ⟨v, rfl⟩ := hWhole x a hRead
      obtain ⟨ms, entries, rfl, hRest, rfl⟩ := ih.mp hMembers
      exact ⟨(key, v) :: ms, (key, a) :: entries, by rw [orFault_eq_ok_iff.mp hName, ofMembers],
        .cons ⟨rfl, hRead⟩ hRest, rfl⟩
    · rintro ⟨ms, entries, hMembers, hRead, rfl⟩
      cases hRead with
      | nil => cases hMembers
      | @cons m e ms entries hHead hTail =>
        obtain ⟨key, v⟩ := m
        obtain ⟨rfl, hValue⟩ := hHead
        obtain ⟨hFirst, rfl⟩ := List.cons.inj hMembers
        cases hFirst
        have hRest := ih.mpr ⟨ms, entries, rfl, hTail, rfl⟩
        exact bind_eq_ok_iff.mpr ⟨_, rfl, bind_eq_ok_iff.mpr
          ⟨_, bind_eq_ok_iff.mpr ⟨_, hValue, rfl⟩, hRest⟩⟩

theorem asMap_insert_eq_ok_iff (hWhole : ReadsWhole read) {d : Draft} {directory : Directory α} :
    asMap (fun d name x => return d.insert name (← read x)) .empty d = .ok directory ↔
      ∃ (ms : List (String × Json)) (entries : List (String × α)), d = ofJson (.object ms) ∧
        List.Forall₂ (fun m e => m.1 = e.1 ∧ read (ofJson m.2) = .ok e.2) ms entries ∧
        directory = .ofEntries entries := by
  constructor
  · intro h
    unfold asMap at h
    split at h
    · obtain ⟨_, hMembers, h⟩ := bind_eq_ok_iff.mp h
      obtain ⟨_, hEnd, h⟩ := bind_eq_ok_iff.mp h
      cases h
      obtain ⟨ms, entries, rfl, hRead, rfl⟩ := (foldMembers_insert_eq_ok_iff hWhole).mp hMembers
      have hClosed := ObjectEnd.asked_eq_none_iff.mp (checkEnd_eq_ok_iff.mp hEnd)
      exact ⟨ms, entries, by rw [hClosed, ofJson], hRead, rfl⟩
    · exact absurd h refuse_ne_ok
  · rintro ⟨ms, entries, rfl, hRead, rfl⟩
    rw [ofJson, asMap, (foldMembers_insert_eq_ok_iff hWhole).mpr ⟨ms, entries, rfl, hRead, rfl⟩]
    rfl

end Lists

end Draft

namespace Tagging

variable {τ : Type} {t : Tagging τ}

theorem ofDraft_eq_ok_iff {d : Draft} {tag : τ} :
    t.ofDraft d = .ok tag ↔ ∃ name, d = .string (.ok name) ∧ t.ofName name = .ok tag := by
  simp only [ofDraft, bind_eq_ok_iff, Draft.asString_eq_ok_iff]

theorem exists_ofMembers_of_readMembers {members : List (Except Fault String × Draft)}
    {before after : Option τ} {rest : List (String × Json)}
    (h : t.readMembers before members = .ok (after, rest)) :
    ∃ ms, members = Draft.ofMembers ms := by
  induction members generalizing before after rest with
  | nil => exact ⟨[], rfl⟩
  | cons m members ih =>
    obtain ⟨name, d⟩ := m
    rw [readMembers] at h
    obtain ⟨key, hName, hFirst⟩ := bind_eq_ok_iff.mp h
    split at hFirst
    · split at hFirst
      · cases hFirst
      · obtain ⟨tag, hTag, hRest⟩ := bind_eq_ok_iff.mp hFirst
        obtain ⟨text, rfl, -⟩ := ofDraft_eq_ok_iff.mp hTag
        obtain ⟨ms, rfl⟩ := ih hRest
        exact ⟨(key, .string text) :: ms, by
          rw [Draft.orFault_eq_ok_iff.mp hName, Draft.ofMembers, Draft.ofJson]⟩
    · obtain ⟨v, hValue, hOthers⟩ := bind_eq_ok_iff.mp hFirst
      obtain ⟨⟨_, others⟩, hRest, -⟩ := bind_eq_ok_iff.mp hOthers
      obtain ⟨ms, rfl⟩ := ih hRest
      exact ⟨(key, v) :: ms, by
        rw [Draft.orFault_eq_ok_iff.mp hName, Draft.value_eq_ok_iff.mp hValue, Draft.ofMembers]⟩

theorem exists_ofJson_of_read {d : Draft} {x : τ × Content} (h : t.read d = .ok x) :
    ∃ v, d = Draft.ofJson v := by
  unfold read at h
  split at h
  · obtain ⟨⟨found, rest⟩, hMembers, h⟩ := bind_eq_ok_iff.mp h
    obtain ⟨_, hEnd, h⟩ := bind_eq_ok_iff.mp h
    obtain ⟨ms, rfl⟩ := exists_ofMembers_of_readMembers hMembers
    exact ⟨.object ms, by rw [ObjectEnd.asked_eq_none_iff.mp (checkEnd_eq_ok_iff.mp hEnd), Draft.ofJson]⟩
  · obtain ⟨_, -, h⟩ := bind_eq_ok_iff.mp h
    cases h
  · obtain ⟨tag, hTag, h⟩ := bind_eq_ok_iff.mp h
    obtain ⟨vs, hItems, h⟩ := bind_eq_ok_iff.mp h
    obtain ⟨_, hEnd, h⟩ := bind_eq_ok_iff.mp h
    obtain ⟨name, rfl, -⟩ := ofDraft_eq_ok_iff.mp hTag
    obtain ⟨ws, rfl, -⟩ := (Draft.readEach_eq_ok_iff Draft.readsWhole_value).mp hItems
    exact ⟨.array (.string name :: ws), by
      rw [ArrayEnd.asked_eq_none_iff.mp (checkEnd_eq_ok_iff.mp hEnd), Draft.ofJson, Draft.ofItems,
        Draft.ofJson]⟩
  · exact absurd h Draft.refuse_ne_ok

end Tagging

end GrammarShapes.Json
