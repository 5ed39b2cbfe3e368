import GrammarShapes.Proofs.Settings.Layers

set_option autoImplicit false

/-! # What documents and overrides assign

A document that says nothing but what settings are assigns contents to settings, entry by entry; so does an
override of a setting. Of several assignments to one setting the last counts, and the other settings keep
what they have.

Files put one after the other upon a table make their assignments in their order. Overrides have distinct
keys, so that their order among themselves is of no account.
-/

namespace GrammarShapes.Settings

abbrev Assignments :=
  List (Setting × Content)

namespace Assignments

def latest (as : Assignments) (k : Setting) : Option Content :=
  as.reverse.lookup k

/-- The contents after the assignments, made upon earlier contents. -/
def upon (as : Assignments) (contents : Setting → Content) (k : Setting) : Content :=
  (as.latest k).getD (contents k)

theorem latest_append (as bs : Assignments) (k : Setting) :
    latest (as ++ bs) k = (latest bs k).or (latest as k) := by
  rw [latest, List.reverse_append, List.lookup_append]
  rfl

theorem upon_append (as bs : Assignments) (contents : Setting → Content) :
    upon (as ++ bs) contents = upon bs (upon as contents) := by
  funext k
  rw [upon, latest_append, upon, upon]
  cases latest bs k <;> rfl

theorem upon_singleton (k : Setting) (c : Content) (contents : Setting → Content) :
    upon [(k, c)] contents = Function.update contents k c := by
  funext j
  by_cases h : j = k
  · simp [upon, latest, h]
  · simp [upon, latest, List.lookup_cons, h, beq_eq_false_iff_ne.mpr h]

theorem upon_cons (a : Setting × Content) (as : Assignments) (contents : Setting → Content) :
    upon (a :: as) contents = upon as (Function.update contents a.1 a.2) := by
  rw [← upon_singleton, ← upon_append]
  rfl

end Assignments

open Assignments

def assignment? (first second : String) (v : Value) : Option (Setting × Content) := do
  let k ← Setting.all.find? fun k => k.names = (Key.fold first, Key.fold second)
  let c ← k.content? v
  some (k, c)

/-- What an entry at the top of a document assigns: a section its members, any other entry its value. -/
def entryAssignments? (file : Option String) (e : String × Toml.Value) : Option Assignments :=
  match Loader.topKey e.1, e.2 with
  | [.name first], .table members => members.mapM fun m => assignment? first m.1 (.ofToml file m.2)
  | [.name first, .name second], v => (assignment? first second (.ofToml file v)).map ([·])
  | _, _ => none

def documentAssignments? (file : Option String) (entries : List (String × Toml.Value)) : Option Assignments :=
  (entries.mapM (entryAssignments? file)).map List.flatten

def textAssignments? (file : Option String) (text : String) : Option Assignments :=
  (Toml.ofText text).bind (documentAssignments? file)

/-- What the file to which a path leads assigns. A file that is not there assigns nothing. -/
def FileLookup.assignments? (find : FileLookup) (path : String) : Option Assignments :=
  match find path with
  | none => some []
  | some file => textAssignments? (some file.name) file.text

section Documents

variable {root : Value} {contents : Setting → Content} {file : Option String} {as : Assignments}

theorem names_of_assignment? {first second : String} {v : Value} {a : Setting × Content}
    (h : assignment? first second v = some a) :
    Key.fold first = a.1.names.1 ∧ Key.fold second = a.1.names.2 ∧ a.1.content? v = some a.2 := by
  obtain ⟨k, hFind, hRest⟩ := Option.bind_eq_some_iff.mp h
  obtain ⟨c, hContent, hPair⟩ := Option.bind_eq_some_iff.mp hRest
  cases hPair
  have hNames : k.names = (Key.fold first, Key.fold second) := by simpa using List.find?_some hFind
  exact ⟨(congrArg Prod.fst hNames).symm, (congrArg Prod.snd hNames).symm, hContent⟩

theorem holds_putMembers {first : String} {members : List (String × Toml.Value)}
    (h : members.mapM (fun m => assignment? first m.1 (.ofToml file m.2)) = some as)
    (hRoot : root.Holds contents) :
    ((Value.ofTomlEntries file members).foldl (fun v m => Value.put m.2 [.name first, .name m.1] v)
      root).Holds (as.upon contents) := by
  induction members generalizing root contents as with
  | nil =>
    cases h
    exact hRoot
  | cons m members ih =>
    rw [List.mapM_cons] at h
    obtain ⟨a, hHead, hTail⟩ := Option.bind_eq_some_iff.mp h
    obtain ⟨rest, hRest, hCons⟩ := Option.bind_eq_some_iff.mp hTail
    cases hCons
    obtain ⟨hFirst, hSecond, hContent⟩ := names_of_assignment? hHead
    rw [upon_cons]
    exact ih hRest (hRoot.put hFirst hSecond hContent)

theorem holds_putEntry {e : String × Toml.Value} (h : entryAssignments? file e = some as)
    (hRoot : root.Holds contents) :
    (Value.put (.ofToml file e.2) (Loader.topKey e.1) root).Holds (as.upon contents) := by
  rw [entryAssignments?] at h
  split at h
  case h_1 _ _ first members hKey hValue =>
    rw [hKey, hValue, Value.ofToml, Value.put_table]
    exact holds_putMembers h (hRoot.put_nil _ _)
  case h_2 _ _ first second hKey =>
    obtain ⟨a, hAssignment, rfl⟩ := Option.map_eq_some_iff.mp h
    obtain ⟨hFirst, hSecond, hContent⟩ := names_of_assignment? hAssignment
    rw [hKey, upon_singleton]
    exact hRoot.put hFirst hSecond hContent
  case h_3 => cases h

theorem holds_putEntries {entries : List (String × Toml.Value)}
    (h : documentAssignments? file entries = some as) (hRoot : root.Holds contents) :
    (Loader.putEntries file entries root).Holds (as.upon contents) := by
  obtain ⟨rows, hRows, rfl⟩ := Option.map_eq_some_iff.mp h
  clear h
  rw [Loader.putEntries]
  induction entries generalizing root contents rows with
  | nil =>
    cases hRows
    exact hRoot
  | cons e entries ih =>
    rw [List.mapM_cons] at hRows
    obtain ⟨row, hHead, hTail⟩ := Option.bind_eq_some_iff.mp hRows
    obtain ⟨rest, hRest, hCons⟩ := Option.bind_eq_some_iff.mp hTail
    cases hCons
    rw [List.flatten_cons, upon_append]
    exact ih (holds_putEntry hHead hRoot) rest hRest

theorem exists_putText {text : String} (h : textAssignments? file text = some as)
    (hRoot : root.Holds contents) :
    ∃ v, Loader.putText file text root = .ok v ∧ v.Holds (as.upon contents) := by
  obtain ⟨entries, hText, hEntries⟩ := Option.bind_eq_some_iff.mp h
  exact ⟨Loader.putEntries file entries root, by rw [Loader.putText, hText], holds_putEntries hEntries hRoot⟩

theorem exists_putFile {find : FileLookup} {path : String} {required : Bool}
    (h : find.assignments? path = some as) (hThere : required = true → find path ≠ none)
    (hRoot : root.Holds contents) :
    ∃ v, Loader.putFile find path required root = .ok v ∧ v.Holds (as.upon contents) := by
  rw [Loader.putFile]
  rw [FileLookup.assignments?] at h
  cases hFind : find path with
  | none =>
    rw [hFind] at h
    cases h
    have hOptional : ¬ required = true := fun hRequired => hThere hRequired hFind
    exact ⟨root, if_neg hOptional, hRoot⟩
  | some file =>
    rw [hFind] at h
    exact exists_putText h hRoot

def assignmentsOfFiles (find : FileLookup) (fs : List (String × Bool)) : Assignments :=
  fs.flatMap fun f => (find.assignments? f.1).getD []

variable {find : FileLookup} {fs : List (String × Bool)}

theorem exists_putFiles (hFits : ∀ f ∈ fs, (find.assignments? f.1).isSome = true)
    (hThere : ∀ path, (path, true) ∈ fs → find path ≠ none) (hRoot : root.Holds contents) :
    ∃ v, Loader.putFiles find fs root = .ok v ∧ v.Holds ((assignmentsOfFiles find fs).upon contents) := by
  induction fs generalizing root contents with
  | nil => exact ⟨root, rfl, hRoot⟩
  | cons f fs ih =>
    obtain ⟨path, required⟩ := f
    obtain ⟨hHead, hTail⟩ := List.forall_mem_cons.mp hFits
    obtain ⟨as, hAs⟩ := Option.isSome_iff_exists.mp hHead
    have hPath : required = true → find path ≠ none := by
      rintro rfl
      exact hThere path List.mem_cons_self
    obtain ⟨below, hPut, hBelow⟩ := exists_putFile hAs hPath hRoot
    obtain ⟨v, hRest, hHolds⟩ := ih hTail (fun other hOther => hThere other (List.mem_cons_of_mem _ hOther)) hBelow
    refine ⟨v, bind_eq_ok_iff.mpr ⟨below, hPut, hRest⟩, ?_⟩
    rwa [assignmentsOfFiles, List.flatMap_cons, hAs, Option.getD_some, upon_append]

/-- The first required file that is not there is named. -/
theorem exists_putFiles_eq_error (hFits : ∀ f ∈ fs, (find.assignments? f.1).isSome = true)
    (hMissing : ∃ path, (path, true) ∈ fs ∧ find path = none) (hRoot : root.Holds contents) :
    ∃ path, (path, true) ∈ fs ∧ find path = none ∧
      Loader.putFiles find fs root = .error (.fileNotFound path) := by
  induction fs generalizing root contents with
  | nil =>
    obtain ⟨path, hPath, -⟩ := hMissing
    cases hPath
  | cons f fs ih =>
    obtain ⟨path, required⟩ := f
    obtain ⟨hHead, hTail⟩ := List.forall_mem_cons.mp hFits
    by_cases hHere : required = true ∧ find path = none
    · obtain ⟨rfl, hNone⟩ := hHere
      refine ⟨path, List.mem_cons_self, hNone, ?_⟩
      rw [Loader.putFiles, Loader.putFile, hNone]
      rfl
    · obtain ⟨as, hAs⟩ := Option.isSome_iff_exists.mp hHead
      obtain ⟨below, hPut, hBelow⟩ :=
        exists_putFile hAs (fun hRequired hNone => hHere ⟨hRequired, hNone⟩) hRoot
      obtain ⟨other, hOther, hNone⟩ := hMissing
      have hRest : (other, true) ∈ fs := by
        rcases List.mem_cons.mp hOther with hEq | hRest
        · cases hEq
          exact absurd ⟨rfl, hNone⟩ hHere
        · exact hRest
      obtain ⟨first, hFirst, hFirstNone, hError⟩ := ih hTail ⟨other, hRest, hNone⟩ hBelow
      refine ⟨first, List.mem_cons_of_mem _ hFirst, hFirstNone, ?_⟩
      rw [Loader.putFiles, hPut]
      exact hError

end Documents

def overrideAssignment? (key : String) (v : Value) : Option (Setting × Content) :=
  match Key.ofText key with
  | .ok key => do
      let k ← Setting.all.find? fun k => k.key = key
      let c ← k.content? v
      some (k, c)
  | .error _ => none

theorem key_of_overrideAssignment? {key : String} {v : Value} {a : Setting × Content}
    (h : overrideAssignment? key v = some a) :
    Key.ofText key = .ok a.1.key ∧ a.1.content? v = some a.2 := by
  rw [overrideAssignment?] at h
  split at h
  case h_1 key' hKey =>
    obtain ⟨k, hFind, hRest⟩ := Option.bind_eq_some_iff.mp h
    obtain ⟨c, hContent, hPair⟩ := Option.bind_eq_some_iff.mp hRest
    cases hPair
    have hSame : k.key = key' := by simpa using List.find?_some hFind
    exact ⟨by rw [hKey, hSame], hContent⟩
  case h_2 => cases h

structure Sound (overrides : List (Key × Value)) : Prop where
  nodup : (overrides.map (·.1)).Nodup
  typed : ∀ e ∈ overrides, ∃ k : Setting, e.1 = k.key ∧ (k.content? e.2).isSome = true

def overridden (overrides : List (Key × Value)) (k : Setting) : Option Content :=
  (overrides.lookup k.key).bind k.content?

section Overrides

variable {overrides : List (Key × Value)}

theorem mem_keys_insertOverride_iff {key other : Key} {v : Value} :
    other ∈ (Loader.insertOverride key v overrides).map (·.1) ↔ other = key ∨ other ∈ overrides.map (·.1) := by
  induction overrides with
  | nil => simp [Loader.insertOverride]
  | cons e rest ih =>
    obtain ⟨first, w⟩ := e
    rw [Loader.insertOverride]
    split
    case isTrue h => simp [h]
    case isFalse h =>
      rw [List.map_cons, List.mem_cons, ih, List.map_cons, List.mem_cons]
      exact or_left_comm

theorem lookup_insertOverride (key other : Key) (v : Value) :
    (Loader.insertOverride key v overrides).lookup other =
      if other = key then some v else overrides.lookup other := by
  induction overrides with
  | nil =>
    rw [Loader.insertOverride, List.lookup_cons]
    split <;> simp_all
  | cons e rest ih =>
    obtain ⟨first, w⟩ := e
    rw [Loader.insertOverride]
    split
    case isTrue h =>
      subst h
      rw [List.lookup_cons, List.lookup_cons]
      split <;> simp_all
    case isFalse h =>
      rw [List.lookup_cons, List.lookup_cons, ih]
      split <;> simp_all

theorem mem_insertOverride {key : Key} {v : Value} {e : Key × Value}
    (h : e ∈ Loader.insertOverride key v overrides) : e = (key, v) ∨ e ∈ overrides := by
  induction overrides with
  | nil => exact Or.inl (List.mem_singleton.mp h)
  | cons first rest ih =>
    rw [Loader.insertOverride] at h
    split at h
    case isTrue hSame =>
      rw [hSame] at h
      exact (List.mem_cons.mp h).imp_right (List.mem_cons_of_mem _)
    case isFalse =>
      rcases List.mem_cons.mp h with rfl | hRest
      · exact Or.inr List.mem_cons_self
      · exact (ih hRest).imp_right (List.mem_cons_of_mem _)

theorem Sound.insertOverride {k : Setting} {c : Content} {v : Value} (h : Sound overrides)
    (hv : k.content? v = some c) : Sound (Loader.insertOverride k.key v overrides) where
  nodup := by
    have hNodup := h.nodup
    clear h
    induction overrides with
    | nil => simp [Loader.insertOverride]
    | cons e rest ih =>
      obtain ⟨hNew, hRest⟩ := List.nodup_cons.mp hNodup
      rw [Loader.insertOverride]
      split
      case isTrue => exact hNodup
      case isFalse hOther =>
        refine List.nodup_cons.mpr ⟨fun hMem => ?_, ih hRest⟩
        rcases mem_keys_insertOverride_iff.mp hMem with hSame | hOld
        · exact hOther hSame
        · exact hNew hOld
  typed e he := by
    rcases mem_insertOverride he with rfl | hOld
    · exact ⟨k, rfl, by rw [hv]; rfl⟩
    · exact h.typed e hOld

theorem overridden_insertOverride {k : Setting} {c : Content} {v : Value} (hv : k.content? v = some c)
    (j : Setting) :
    overridden (Loader.insertOverride k.key v overrides) j =
      (latest [(k, c)] j).or (overridden overrides j) := by
  rw [overridden, lookup_insertOverride]
  by_cases h : j = k
  · rw [h, if_pos rfl, Option.bind_some, hv]
    simp [latest]
  · rw [if_neg fun hKey => h (Setting.key_injective hKey)]
    simp [latest, List.lookup_cons, beq_eq_false_iff_ne.mpr h, overridden]

theorem holds_putOverrides {root : Value} {contents : Setting → Content} (h : Sound overrides)
    (hRoot : root.Holds contents) :
    (Loader.putOverrides overrides root).Holds fun k => (overridden overrides k).getD (contents k) := by
  rw [Loader.putOverrides]
  induction overrides generalizing root contents with
  | nil => exact hRoot
  | cons e rest ih =>
    obtain ⟨key, v⟩ := e
    obtain ⟨hNew, hNodup⟩ := List.nodup_cons.mp h.nodup
    obtain ⟨hHead, hTyped⟩ := List.forall_mem_cons.mp h.typed
    obtain ⟨k, rfl, hContent⟩ := hHead
    obtain ⟨c, hc⟩ := Option.isSome_iff_exists.mp hContent
    have hRest := ih ⟨hNodup, hTyped⟩ (hRoot.put_key hc)
    have hSame : (fun j => (overridden rest j).getD (Function.update contents k c j)) =
        fun j => (overridden ((k.key, v) :: rest) j).getD (contents j) := by
      funext j
      by_cases hjk : j = k
      · have hNone : rest.lookup k.key = none := List.lookup_eq_none_iff.mpr fun p hp =>
          bne_iff_ne.mpr fun hKey => hNew (List.mem_map.mpr ⟨p, hp, hKey.symm⟩)
        simp [overridden, hjk, hNone, hc]
      · have hKey : (j.key == k.key) = false :=
          beq_eq_false_iff_ne.mpr fun hKey => hjk (Setting.key_injective hKey)
        rw [Function.update_of_ne hjk, overridden, overridden, List.lookup_cons, hKey]
    rwa [hSame] at hRest

end Overrides

end GrammarShapes.Settings
