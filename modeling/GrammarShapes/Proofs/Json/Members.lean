import GrammarShapes.Proofs.Collection.Entries
import GrammarShapes.Proofs.Json.Whole

set_option autoImplicit false

/-! # Members of objects

A reader that looks for a name reads the value that stands there, and fails if there are two. The sorted
form of an object has at every name the last value that stood there, and so it is read where the object
itself is: a reader that fails at repeated names reads the only value, and one that passes over them the
last.
-/

namespace GrammarShapes.Json

/-- Reads what stands at one name: nothing keeps the old outcome, and one value may be the first. -/
inductive FilledOnce {α β : Type} (read : β → Except Error α) (old : Option α) :
    List β → Option α → Prop
  | kept : FilledOnce read old [] old
  | filled {b : β} {a : α} (hNew : old = none) (hRead : read b = .ok a) : FilledOnce read old [b] (some a)

theorem sizeOf_lt_of_mem_array {v : Json} {vs : List Json} (h : v ∈ vs) : sizeOf v < sizeOf (Json.array vs) := by
  have hSize := List.sizeOf_lt_of_mem h
  rw [Json.array.sizeOf_spec]
  omega

theorem sizeOf_lt_of_mem_object {key : String} {v : Json} {ms : List (String × Json)} (h : (key, v) ∈ ms) :
    sizeOf v < sizeOf (Json.object ms) := by
  have hSize := List.sizeOf_lt_of_mem h
  rw [Prod.mk.sizeOf_spec] at hSize
  rw [Json.object.sizeOf_spec]
  omega

section Filled

variable {α β : Type} {read : β → Except Error α} {old new : Option α}

theorem filledOnce_nil_iff : FilledOnce read old [] new ↔ new = old := by
  constructor
  · intro h
    cases h
    rfl
  · rintro rfl
    exact .kept

theorem filledOnce_cons_iff {b : β} {bs : List β} :
    FilledOnce read old (b :: bs) new ↔
      old = none ∧ ∃ a, read b = .ok a ∧ FilledOnce read (some a) bs new := by
  constructor
  · intro h
    cases h with
    | filled hNew hRead => exact ⟨hNew, _, hRead, .kept⟩
  · rintro ⟨rfl, a, hRead, hRest⟩
    cases hRest with
    | kept => exact .filled rfl hRead
    | filled hNew _ => cases hNew

theorem filledOnce_singleton_iff {b : β} :
    FilledOnce read none [b] new ↔ ∃ a, read b = .ok a ∧ new = some a := by
  simp only [filledOnce_cons_iff, filledOnce_nil_iff, true_and]

theorem filledOnce_congr {bs cs : List β}
    (h : List.Forall₂ (fun b c => ∀ a, read b = .ok a ↔ read c = .ok a) bs cs) :
    FilledOnce read old bs new ↔ FilledOnce read old cs new := by
  induction h generalizing old with
  | nil => exact Iff.rfl
  | cons hHead _ ih => simp only [filledOnce_cons_iff, hHead _, ih]

theorem once_eq_ok_iff {field : String} {x : Except Error α} :
    once field old x = .ok new ↔ old = none ∧ ∃ a, x = .ok a ∧ new = some a := by
  unfold once
  cases old with
  | some _ => simp
  | none =>
    cases x with
    | error _ => simp
    | ok a => simp [eq_comm]

end Filled

/-- A state with a slot for each field, which holds what the field was read as. -/
structure Slots (F : Type) (V : F → Type) (σ : Type) where
  get : σ → (f : F) → Option (V f)
  set : σ → (f : F) → V f → σ
  get_set_self (s : σ) (f : F) (x : V f) : get (set s f x) f = some x
  get_set_of_ne (s : σ) (f g : F) (x : V f) (h : g ≠ f) : get (set s f x) g = get s g
  ext_get (s t : σ) (h : ∀ f, get s f = get t f) : s = t

/-- A reader of members that fills one slot after the other, each only once, fills each from the values that
stand at the names of its field; in which order they stand among the others is of no account. -/
theorem Slots.run_iff {F σ κ β : Type} [DecidableEq F] {V : F → Type} (slots : Slots F V σ)
    (read : (f : F) → β → Except Error (V f)) (field? : κ → Option F) (passes : κ → β → Prop)
    (run : σ → List (κ × β) → σ → Prop) (hNil : ∀ s s', run s [] s' ↔ s = s')
    (hPass : ∀ s key b rest s', field? key = none →
      (run s ((key, b) :: rest) s' ↔ passes key b ∧ run s rest s'))
    (hFill : ∀ s key b rest s' f, field? key = some f → (run s ((key, b) :: rest) s' ↔
      slots.get s f = none ∧ ∃ x, read f b = .ok x ∧ run (slots.set s f x) rest s'))
    {ms : List (κ × β)} {s s' : σ} :
    run s ms s' ↔
      (∀ f, FilledOnce (read f) (slots.get s f) (valuesAt (some f) (ms.map fun m => (field? m.1, m.2)))
        (slots.get s' f)) ∧ ∀ m ∈ ms, field? m.1 = none → passes m.1 m.2 := by
  induction ms generalizing s with
  | nil =>
    rw [hNil]
    constructor
    · rintro rfl
      exact ⟨fun f => .kept, List.forall_mem_nil _⟩
    · rintro ⟨h, -⟩
      exact slots.ext_get _ _ fun f => (filledOnce_nil_iff.mp (h f)).symm
  | cons m rest ih =>
    obtain ⟨key, b⟩ := m
    rw [List.map_cons, List.forall_mem_cons]
    cases hField : field? key with
    | none =>
      rw [hPass s key b rest s' hField, ih]
      simp only [valuesAt_cons_of_ne (Option.some_ne_none _).symm, forall_true_left]
      exact and_left_comm
    | some f =>
      -- Only the slot of `f` is changed; for the other slots the first member does not count.
      rw [hFill s key b rest s' f hField]
      constructor
      · rintro ⟨hOld, x, hRead, hRest⟩
        obtain ⟨hSlots, hOthers⟩ := ih.mp hRest
        refine ⟨fun g => ?_, fun hNone => absurd hNone (Option.some_ne_none f), hOthers⟩
        have hSlot := hSlots g
        by_cases hg : g = f
        · subst hg
          rw [slots.get_set_self] at hSlot
          rw [valuesAt_cons_self]
          exact filledOnce_cons_iff.mpr ⟨hOld, x, hRead, hSlot⟩
        · rw [slots.get_set_of_ne _ _ _ _ hg] at hSlot
          rwa [valuesAt_cons_of_ne fun hSame => hg (Option.some.inj hSame).symm]
      · rintro ⟨hSlots, -, hOthers⟩
        have hSlot := hSlots f
        rw [valuesAt_cons_self] at hSlot
        obtain ⟨hOld, x, hRead, hFilled⟩ := filledOnce_cons_iff.mp hSlot
        refine ⟨hOld, x, hRead, ih.mpr ⟨fun g => ?_, hOthers⟩⟩
        by_cases hg : g = f
        · subst hg
          rwa [slots.get_set_self]
        · have hOther := hSlots g
          rw [valuesAt_cons_of_ne fun hSame => hg (Option.some.inj hSame).symm] at hOther
          rwa [slots.get_set_of_ne _ _ _ _ hg]

section Sorted

variable {name key : String} {value : Json} {ms : List (String × Json)}

theorem any_name_iff : ms.any (·.1 == name) = true ↔ name ∈ ms.map (·.1) := by
  simp only [List.any_eq_true, List.mem_map, beq_iff_eq]

theorem valuesAt_insertMember (h : name ∉ ms.map (·.1)) :
    valuesAt key (insertMember name value ms) = valuesAt key ((name, value) :: ms) := by
  induction ms with
  | nil => rfl
  | cons m ms ih =>
    obtain ⟨other, v⟩ := m
    obtain ⟨hOther, hRest⟩ := not_or.mp (List.mem_cons.not.mp h)
    rw [insertMember]
    split
    · rfl
    · by_cases hKey : other = key
      · subst hKey
        rw [valuesAt_cons_self, ih hRest, valuesAt_cons_of_ne hOther, valuesAt_cons_of_ne hOther,
          valuesAt_cons_self]
      · rw [valuesAt_cons_of_ne hKey, ih hRest]
        simp only [valuesAt, if_neg hKey]

theorem valuesAt_sortedMembers (key : String) (ms : List (String × Json)) :
    valuesAt key (sortedMembers ms) = ((valuesAt key ms).getLast?.map sorted).toList := by
  induction ms generalizing key with
  | nil => rfl
  | cons m ms ih =>
    obtain ⟨name, v⟩ := m
    rw [sortedMembers]
    by_cases hAgain : name ∈ ms.map (·.1)
    · -- The name comes again, so that its last value stands in the rest.
      rw [if_pos (any_name_iff.mpr hAgain), ih]
      by_cases hKey : name = key
      · subst hKey
        obtain ⟨w, ws, hValues⟩ := List.exists_cons_of_ne_nil (valuesAt_eq_nil_iff.not_left.mpr hAgain)
        rw [valuesAt_cons_self, hValues, List.getLast?_cons_cons]
      · rw [valuesAt_cons_of_ne hKey]
    · have hNone : valuesAt name ms = [] := valuesAt_eq_nil_iff.mpr hAgain
      have hNew : valuesAt name (sortedMembers ms) = [] := by
        rw [ih, hNone]
        rfl
      rw [if_neg (any_name_iff.not.mpr hAgain), valuesAt_insertMember (valuesAt_eq_nil_iff.mp hNew)]
      by_cases hKey : name = key
      · subst hKey
        rw [valuesAt_cons_self, valuesAt_cons_self, hNew, hNone]
        rfl
      · rw [valuesAt_cons_of_ne hKey, valuesAt_cons_of_ne hKey, ih]

theorem mem_names_sortedMembers_iff :
    name ∈ (sortedMembers ms).map (·.1) ↔ name ∈ ms.map (·.1) := by
  rw [← not_iff_not, ← valuesAt_eq_nil_iff, ← valuesAt_eq_nil_iff, valuesAt_sortedMembers]
  simp [Option.toList_eq_nil_iff]

theorem pairwise_insertMember (hNew : name ∉ ms.map (·.1)) (h : (ms.map (·.1)).Pairwise (· < ·)) :
    ((insertMember name value ms).map (·.1)).Pairwise (· < ·) := by
  induction ms with
  | nil => exact List.pairwise_singleton _ _
  | cons m ms ih =>
    obtain ⟨other, v⟩ := m
    obtain ⟨hOther, hRest⟩ := not_or.mp (List.mem_cons.not.mp hNew)
    obtain ⟨hFirst, hOthers⟩ := List.pairwise_cons.mp h
    rw [insertMember]
    split
    · rename_i hLess
      refine List.pairwise_cons.mpr ⟨?_, h⟩
      intro key hKey
      rcases List.mem_cons.mp hKey with rfl | hKey
      · exact hLess
      · exact String.lt_trans hLess (hFirst key hKey)
    · rename_i hNotLess
      refine List.pairwise_cons.mpr ⟨?_, ih hRest hOthers⟩
      intro key hKey
      obtain ⟨m, hm, rfl⟩ := List.mem_map.mp hKey
      rcases mem_insertMember_iff.mp hm with rfl | hm
      · exact Std.lt_of_le_of_ne hNotLess (Ne.symm hOther)
      · exact hFirst _ (List.mem_map.mpr ⟨m, hm, rfl⟩)

theorem pairwise_sortedMembers (ms : List (String × Json)) :
    ((sortedMembers ms).map (·.1)).Pairwise (· < ·) := by
  induction ms with
  | nil => exact .nil
  | cons m ms ih =>
    obtain ⟨name, v⟩ := m
    rw [sortedMembers]
    split
    · exact ih
    · rename_i hAny
      exact pairwise_insertMember (mem_names_sortedMembers_iff.not.mpr (any_name_iff.not.mp hAny)) ih

end Sorted

namespace Tagging

variable {τ : Type} {t : Tagging τ} {old new : Option τ} {tag : τ}

theorem findTag_eq_ok_iff {ms : List (String × Json)} :
    t.findTag old ms = .ok new ↔ FilledOnce t.ofJson old (valuesAt t.field ms) new := by
  induction ms generalizing old with
  | nil =>
    rw [findTag, valuesAt, filledOnce_nil_iff, Except.ok.injEq]
    exact eq_comm
  | cons m ms ih =>
    obtain ⟨name, v⟩ := m
    rw [findTag]
    by_cases hName : name = t.field
    · subst hName
      rw [if_pos rfl, valuesAt_cons_self, filledOnce_cons_iff]
      cases old with
      | some _ => simp
      | none =>
        simp only [Option.isSome_none, Bool.false_eq_true, if_false, true_and, ← ih]
        exact bind_eq_ok_iff
    · rw [if_neg hName, valuesAt_cons_of_ne hName]
      exact ih

def ofValue (t : Tagging τ) (v : Json) : Except Error τ :=
  t.ofDraft (.ofJson v)

theorem ofValue_eq_ok_iff {v : Json} :
    t.ofValue v = .ok tag ↔ ∃ name, v = .string name ∧ t.ofName name = .ok tag := by
  rw [ofValue, ofDraft_eq_ok_iff]
  constructor
  · rintro ⟨name, hString, hName⟩
    exact ⟨name, Draft.ofJson_injective hString, hName⟩
  · rintro ⟨name, rfl, hName⟩
    exact ⟨name, rfl, hName⟩

theorem readMembers_ofMembers_eq_ok_iff {ms rest : List (String × Json)} :
    t.readMembers old (Draft.ofMembers ms) = .ok (new, rest) ↔
      FilledOnce t.ofValue old (valuesAt t.field ms) new ∧ rest = ms.filter (·.1 ≠ t.field) := by
  induction ms generalizing old rest with
  | nil =>
    rw [Draft.ofMembers, readMembers, valuesAt, filledOnce_nil_iff, Except.ok.injEq, Prod.mk.injEq,
      List.filter_nil]
    exact and_congr eq_comm eq_comm
  | cons m ms ih =>
    obtain ⟨name, v⟩ := m
    rw [Draft.ofMembers, readMembers]
    change (if name = t.field then _ else _) = _ ↔ _
    by_cases hName : name = t.field
    · subst hName
      rw [if_pos rfl, valuesAt_cons_self, filledOnce_cons_iff, List.filter_cons_of_neg (by simp)]
      cases old with
      | some _ => simp
      | none =>
        rw [Option.isSome_none, if_neg Bool.false_ne_true]
        constructor
        · intro h
          obtain ⟨tag, hTag, hRest⟩ := bind_eq_ok_iff.mp h
          obtain ⟨hFilled, hOthers⟩ := ih.mp hRest
          exact ⟨⟨rfl, tag, hTag, hFilled⟩, hOthers⟩
        · rintro ⟨⟨-, tag, hTag, hFilled⟩, hOthers⟩
          exact bind_eq_ok_iff.mpr ⟨tag, hTag, ih.mpr ⟨hFilled, hOthers⟩⟩
    · rw [if_neg hName, valuesAt_cons_of_ne hName, List.filter_cons_of_pos (by simpa using hName)]
      constructor
      · intro h
        obtain ⟨w, hValue, hMembers⟩ := bind_eq_ok_iff.mp h
        obtain ⟨⟨found, others⟩, hRest, hSame⟩ := bind_eq_ok_iff.mp hMembers
        cases hSame
        obtain ⟨hFilled, hOthers⟩ := ih.mp hRest
        rw [Draft.ofJson_injective (Draft.value_eq_ok_iff.mp hValue), hOthers]
        exact ⟨hFilled, rfl⟩
      · rintro ⟨hFilled, rfl⟩
        exact bind_eq_ok_iff.mpr ⟨v, Draft.value_eq_ok_iff.mpr rfl,
          bind_eq_ok_iff.mpr ⟨_, ih.mpr ⟨hFilled, rfl⟩, rfl⟩⟩

/-- From an object the tag is read wherever it stands, and the other members are kept. -/
theorem read_object_eq_ok_iff {ms : List (String × Json)} {content : Content} :
    t.read (.ofJson (.object ms)) = .ok (tag, content) ↔
      FilledOnce t.ofValue none (valuesAt t.field ms) (some tag) ∧
        content = .members (ms.filter (·.1 ≠ t.field)) := by
  rw [Draft.ofJson, read]
  constructor
  · intro h
    obtain ⟨⟨found, others⟩, hMembers, hEnd⟩ := bind_eq_ok_iff.mp h
    obtain ⟨hFilled, hOthers⟩ := readMembers_ofMembers_eq_ok_iff.mp hMembers
    obtain ⟨_, -, hFound⟩ := bind_eq_ok_iff.mp hEnd
    obtain ⟨tag', hRequired, hSame⟩ := bind_eq_ok_iff.mp hFound
    cases hSame
    rw [required_eq_ok_iff.mp hRequired] at hFilled
    exact ⟨hFilled, by rw [hOthers]⟩
  · rintro ⟨hFilled, rfl⟩
    exact bind_eq_ok_iff.mpr ⟨_, readMembers_ofMembers_eq_ok_iff.mpr ⟨hFilled, rfl⟩, rfl⟩

theorem read_array_eq_ok_iff {v : Json} {vs : List Json} {content : Content} :
    t.read (.ofJson (.array (v :: vs))) = .ok (tag, content) ↔
      t.ofValue v = .ok tag ∧ content = .items vs := by
  have hItems : Draft.readEach Draft.value (Draft.ofItems vs) = .ok vs :=
    (Draft.readEach_eq_ok_iff Draft.readsWhole_value).mpr
      ⟨vs, rfl, List.forall₂_same.mpr fun _ _ => Draft.value_eq_ok_iff.mpr rfl⟩
  rw [Draft.ofJson, Draft.ofItems, read, hItems]
  constructor
  · intro h
    obtain ⟨tag', hTag, hSame⟩ := bind_eq_ok_iff.mp h
    cases hSame
    exact ⟨hTag, rfl⟩
  · rintro ⟨hTag, rfl⟩
    exact bind_eq_ok_iff.mpr ⟨tag, hTag, rfl⟩

end Tagging

end GrammarShapes.Json
