import GrammarShapes.Proofs.Outcome
import GrammarShapes.Settings.Loader
import Mathlib.Logic.Function.Basic

set_option autoImplicit false

/-! # Layers that say what settings are

There are five settings, each with a name in a section. A value of a setting's type says what the setting
is: a character, or a truth value. A table of all settings holds some contents if the value under the names
of each setting says its content.

Putting a value upon such a table at the names of a setting changes that content and no other one. A section
as a whole is put entry by entry, so this is all that has to be known about layers. Settings can be read from
every table that holds contents, and they have those contents.
-/

namespace GrammarShapes.Settings

inductive Setting where
  | hiddenPrefix
  | includeExtras
  | pretty
  | lineNumbers
  | ranges
deriving DecidableEq

inductive Content where
  | character (c : Char)
  | truth (b : Bool)
deriving DecidableEq

namespace Setting

def all : List Setting :=
  [hiddenPrefix, includeExtras, pretty, lineNumbers, ranges]

def names : Setting → String × String
  | hiddenPrefix => ("schema", "hidden_prefix")
  | includeExtras => ("schema", "include_extras")
  | pretty => ("output", "pretty")
  | lineNumbers => ("treeviz", "show_linum")
  | ranges => ("treeviz", "show_ranges")

def key (k : Setting) : Key :=
  [.name k.names.1, .name k.names.2]

def content (s : Settings) : Setting → Content
  | hiddenPrefix => .character s.options.hiddenPrefix
  | includeExtras => .truth s.options.includeExtras
  | pretty => .truth s.pretty
  | lineNumbers => .truth s.outline.lineNumbers
  | ranges => .truth s.outline.ranges

def builtIn : Setting → Content
  | hiddenPrefix => .character '_'
  | includeExtras | pretty => .truth true
  | lineNumbers | ranges => .truth false

def truth? : Value → Option Content
  | .scalar _ (.boolean b) => some (.truth b)
  | _ => none

def character? : Value → Option Content
  | .scalar _ (.string s) =>
      match s.toList with
      | [c] => some (.character c)
      | _ => none
  | _ => none

def content? : Setting → Value → Option Content
  | hiddenPrefix => character?
  | _ => truth?

variable {j k : Setting} {v : Value} {c : Content}

theorem mem_all (k : Setting) : k ∈ all := by
  cases k <;> decide

theorem names_injective (h : j.names = k.names) : j = k := by
  cases j <;> cases k <;> first | rfl | exact absurd h (by decide)

theorem key_injective (h : j.key = k.key) : j = k := by
  simp only [key, List.cons.injEq, Step.name.injEq, and_true] at h
  exact names_injective (Prod.ext h.1 h.2)

theorem fold_names_fst (k : Setting) : Key.fold k.names.1 = k.names.1 := by
  cases k <;> rfl

theorem fold_names_snd (k : Setting) : Key.fold k.names.2 = k.names.2 := by
  cases k <;> rfl

theorem eq_of_truth? (h : truth? v = some c) : ∃ file b, v = .scalar file (.boolean b) ∧ c = .truth b := by
  unfold truth? at h
  split at h
  · cases h
    exact ⟨_, _, rfl, rfl⟩
  · cases h

theorem eq_of_character? (h : character? v = some c) :
    ∃ file s x, v = .scalar file (.string s) ∧ s.toList = [x] ∧ c = .character x := by
  unfold character? at h
  split at h
  · split at h
    · cases h
      exact ⟨_, _, _, rfl, ‹_›, rfl⟩
    · cases h
  · cases h

theorem eq_scalar_of_content? (h : k.content? v = some c) : ∃ file s, v = .scalar file s := by
  cases k with
  | hiddenPrefix =>
    obtain ⟨file, s, x, rfl, -, -⟩ := eq_of_character? h
    exact ⟨file, _, rfl⟩
  | includeExtras | pretty | lineNumbers | ranges =>
    obtain ⟨file, b, rfl, -⟩ := eq_of_truth? h
    exact ⟨file, _, rfl⟩

end Setting

namespace Value

theorem lookup_updateEntry (name other : String) (change : Option Value → Value)
    (entries : List (String × Value)) :
    (updateEntry name change entries).lookup other =
      if other = name then some (change (entries.lookup other)) else entries.lookup other := by
  induction entries with
  | nil =>
    rw [updateEntry, List.lookup_cons]
    split <;> simp_all
  | cons e rest ih =>
    obtain ⟨first, v⟩ := e
    rw [updateEntry]
    split
    case isTrue h =>
      subst h
      rw [List.lookup_cons, List.lookup_cons]
      split <;> simp_all
    case isFalse h =>
      rw [List.lookup_cons, List.lookup_cons, ih]
      split <;> simp_all

theorem updateEntry_updateEntry (name : String) (change change' : Option Value → Value)
    (entries : List (String × Value)) :
    updateEntry name change (updateEntry name change' entries) =
      updateEntry name (fun below => change (some (change' below))) entries := by
  induction entries with
  | nil => simp [updateEntry]
  | cons e rest ih =>
    obtain ⟨first, v⟩ := e
    by_cases h : first = name
    · simp [updateEntry, h]
    · simp [updateEntry, h, ih]

theorem lookup_updateName (name other : String) (change : Option Value → Value) (v : Value) :
    (updateName name change v).entries.lookup other =
      if other = Key.fold name then some (change (v.entries.lookup other)) else v.entries.lookup other :=
  lookup_updateEntry _ other change v.entries

theorem updateName_updateName (name : String) (change change' : Option Value → Value) (v : Value) :
    updateName name change (updateName name change' v) =
      updateName name (fun below => change (some (change' below))) v :=
  congrArg (table v.tableFile) (updateEntry_updateEntry _ change change' v.entries)

theorem put_table (file : Option String) (members : List (String × Value)) (name : String) (root : Value) :
    put (.table file members) [.name name] root =
      members.foldl (fun v m => put m.2 [.name name, .name m.1] v)
        (put (.table file []) [.name name] root) := by
  induction members generalizing root with
  | nil => rfl
  | cons m members ih =>
    have hBegun : put m.2 [.name name, .name m.1] (put (.table file []) [.name name] root) =
        put (.table file []) [.name name] (put m.2 [.name name, .name m.1] root) := by
      simp only [put, updateStep, updateName_updateName, merge, mergeEntries, Option.getD_some]
      congr 1
      funext below
      cases below <;> rfl
    rw [List.foldl_cons, hBegun, ← ih]
    simp only [put, updateStep, updateName_updateName]
    congr 1
    funext below
    cases below <;> rfl

def at? (root : Value) (k : Setting) : Option Value :=
  (root.entries.lookup k.names.1).bind fun v => v.entries.lookup k.names.2

theorem at?_put_nil (file : Option String) (name : String) (root : Value) (k : Setting) :
    (put (.table file []) [.name name] root).at? k = root.at? k := by
  simp only [at?, put, lookup_updateName]
  split
  · cases root.entries.lookup k.names.1 <;> rfl
  · rfl

theorem lookup_getD_nil (below : Option Value) (name : String) :
    (below.getD nil).entries.lookup name = below.bind fun v => v.entries.lookup name := by
  cases below <;> rfl

variable {root v : Value} {j k : Setting} {first second : String} {contents : Setting → Content}

theorem at?_put (hFirst : Key.fold first = k.names.1) (hSecond : Key.fold second = k.names.2) :
    (put v [.name first, .name second] root).at? j =
      if j = k then some (merge v (root.at? k)) else root.at? j := by
  simp only [at?, put, updateStep, lookup_updateName, hFirst]
  by_cases hjk : j = k
  · rw [if_pos hjk, hjk, if_pos rfl, Option.bind_some, lookup_updateName, hSecond, if_pos rfl, lookup_getD_nil]
  · rw [if_neg hjk]
    split
    case isTrue hSection =>
      have hName : j.names.2 ≠ k.names.2 := fun hName => hjk (Setting.names_injective (Prod.ext hSection hName))
      rw [Option.bind_some, lookup_updateName, hSecond, if_neg hName, lookup_getD_nil]
    case isFalse => rfl

/-- The table says of each setting what it is. -/
def Holds (root : Value) (contents : Setting → Content) : Prop :=
  ∀ k, (root.at? k).bind k.content? = some (contents k)

instance decidableHolds (root : Value) (contents : Setting → Content) : Decidable (root.Holds contents) :=
  decidable_of_iff (∀ k ∈ Setting.all, (root.at? k).bind k.content? = some (contents k))
    ⟨fun h k => h k k.mem_all, fun h k _ => h k⟩

theorem Holds.put_nil (h : root.Holds contents) (file : Option String) (name : String) :
    (put (.table file []) [.name name] root).Holds contents := by
  intro k
  rw [at?_put_nil]
  exact h k

theorem Holds.put {c : Content} (h : root.Holds contents) (hFirst : Key.fold first = k.names.1)
    (hSecond : Key.fold second = k.names.2) (hv : k.content? v = some c) :
    (put v [.name first, .name second] root).Holds (Function.update contents k c) := by
  obtain ⟨file, s, rfl⟩ := Setting.eq_scalar_of_content? hv
  intro j
  rw [at?_put hFirst hSecond]
  by_cases hjk : j = k
  · rw [if_pos hjk, hjk, Function.update_self]
    exact hv
  · rw [if_neg hjk, Function.update_of_ne hjk]
    exact h j

theorem Holds.put_key {c : Content} (h : root.Holds contents) (hv : k.content? v = some c) :
    (Value.put v k.key root).Holds (Function.update contents k c) :=
  h.put k.fold_names_fst k.fold_names_snd hv

theorem eq_table_of_lookup {name : String} {w : Value} (h : v.entries.lookup name = some w) :
    ∃ file members, v = .table file members ∧ members.lookup name = some w := by
  cases v with
  | table file members => exact ⟨file, members, rfl, h⟩
  | scalar file s => cases h
  | array file items => cases h

theorem Holds.exists_member (h : root.Holds contents) (k : Setting) :
    ∃ file members w, root.entries.lookup k.names.1 = some (.table file members) ∧
      members.lookup k.names.2 = some w ∧ k.content? w = some (contents k) := by
  obtain ⟨w, hAt, hContent⟩ := Option.bind_eq_some_iff.mp (h k)
  obtain ⟨v, hSection, hMember⟩ := Option.bind_eq_some_iff.mp hAt
  obtain ⟨file, members, rfl, hLookup⟩ := eq_table_of_lookup hMember
  exact ⟨file, members, w, hSection, hLookup, hContent⟩

end Value

variable {v w : Value} {c d : Content} {file : Option String} {members : List (String × Value)}

theorem readBoolean_of_truth? (h : Setting.truth? v = some c) :
    ∃ b, c = .truth b ∧ ∀ name, readBoolean name v = .ok b := by
  obtain ⟨file, b, rfl, rfl⟩ := Setting.eq_of_truth? h
  exact ⟨b, rfl, fun _ => rfl⟩

theorem readCharacter_of_character? (h : Setting.character? v = some c) :
    ∃ x, c = .character x ∧ readCharacter v = .ok x := by
  obtain ⟨file, s, x, rfl, hs, rfl⟩ := Setting.eq_of_character? h
  exact ⟨x, rfl, by rw [readCharacter, hs]⟩

theorem exists_part {α : Type} {a : α} {read : String → Value → Except Failure α} (s : Section) (i : Nat)
    (file : Option String) (hv : members.lookup (s.fields.getD i "") = some v)
    (hRead : ∀ name, read name v = .ok a) :
    ∃ p, s.part (.table file members) i = .ok p ∧ p.read read = .ok (some a) := by
  refine ⟨_, rfl, ?_⟩
  simp only [Part.read, hv, hRead]
  rfl

theorem readOptions_table (file : Option String) (hv : members.lookup "hidden_prefix" = some v)
    (hw : members.lookup "include_extras" = some w) (hc : Setting.character? v = some c)
    (hd : Setting.truth? w = some d) :
    ∃ o, readOptions (.table file members) = .ok o ∧ c = .character o.hiddenPrefix ∧
      d = .truth o.includeExtras := by
  obtain ⟨x, rfl, hx⟩ := readCharacter_of_character? hc
  obtain ⟨b, rfl, hb⟩ := readBoolean_of_truth? hd
  obtain ⟨p, hp, hpRead⟩ := exists_part Section.schema 0 file hv fun _ => hx
  obtain ⟨q, hq, hqRead⟩ := exists_part Section.schema 1 file hw hb
  refine ⟨⟨x, b⟩, bind_eq_ok_iff.mpr ⟨p, hp, bind_eq_ok_iff.mpr ⟨q, hq, ?_⟩⟩, rfl, rfl⟩
  exact bind_eq_ok_iff.mpr ⟨some x, hpRead, bind_eq_ok_iff.mpr ⟨some b, hqRead, rfl⟩⟩

theorem readPretty_table (file : Option String) (hv : members.lookup "pretty" = some v)
    (hc : Setting.truth? v = some c) : ∃ b, readPretty (.table file members) = .ok b ∧ c = .truth b := by
  obtain ⟨b, rfl, hb⟩ := readBoolean_of_truth? hc
  obtain ⟨p, hp, hpRead⟩ := exists_part Section.output 0 file hv hb
  exact ⟨b, bind_eq_ok_iff.mpr ⟨p, hp, bind_eq_ok_iff.mpr ⟨some b, hpRead, rfl⟩⟩, rfl⟩

theorem readOutline_table (file : Option String) (hv : members.lookup "show_linum" = some v)
    (hw : members.lookup "show_ranges" = some w) (hc : Setting.truth? v = some c)
    (hd : Setting.truth? w = some d) :
    ∃ o, readOutline (.table file members) = .ok o ∧ c = .truth o.lineNumbers ∧ d = .truth o.ranges := by
  obtain ⟨a, rfl, ha⟩ := readBoolean_of_truth? hc
  obtain ⟨b, rfl, hb⟩ := readBoolean_of_truth? hd
  obtain ⟨p, hp, hpRead⟩ := exists_part Section.outline 0 file hv ha
  obtain ⟨q, hq, hqRead⟩ := exists_part Section.outline 1 file hw hb
  refine ⟨⟨a, b⟩, bind_eq_ok_iff.mpr ⟨p, hp, bind_eq_ok_iff.mpr ⟨q, hq, ?_⟩⟩, rfl, rfl⟩
  exact bind_eq_ok_iff.mpr ⟨some a, hpRead, bind_eq_ok_iff.mpr ⟨some b, hqRead, rfl⟩⟩

theorem find_of_lookup {s : Section} {root : Value} (h : root.entries.lookup s.name = some v) :
    s.find root = .ok v := by
  rw [Section.find, h]

theorem exists_ofValue {root : Value} {contents : Setting → Content} (h : root.Holds contents) :
    ∃ s, ofValue root = .ok s ∧ ∀ k, Setting.content s k = contents k := by
  obtain ⟨file, schema, v, hSchema, hPrefix, hv⟩ := h.exists_member .hiddenPrefix
  obtain ⟨_, _, w, hSchema', hExtras, hw⟩ := h.exists_member .includeExtras
  obtain ⟨file', output, u, hOutput, hPretty, hu⟩ := h.exists_member .pretty
  obtain ⟨file'', outline, x, hOutline, hNumbers, hx⟩ := h.exists_member .lineNumbers
  obtain ⟨_, _, y, hOutline', hRanges, hy⟩ := h.exists_member .ranges
  obtain ⟨rfl, rfl⟩ := Value.table.inj (Option.some.inj (hSchema.symm.trans hSchema'))
  obtain ⟨rfl, rfl⟩ := Value.table.inj (Option.some.inj (hOutline.symm.trans hOutline'))
  obtain ⟨o, ho, hoPrefix, hoExtras⟩ := readOptions_table file hPrefix hExtras hv hw
  obtain ⟨b, hb, hbPretty⟩ := readPretty_table file' hPretty hu
  obtain ⟨p, hp, hpNumbers, hpRanges⟩ := readOutline_table file'' hNumbers hRanges hx hy
  refine ⟨⟨o, b, p⟩, ?_, fun k => ?_⟩
  · refine bind_eq_ok_iff.mpr ⟨_, find_of_lookup hSchema, bind_eq_ok_iff.mpr ⟨o, ho, ?_⟩⟩
    refine bind_eq_ok_iff.mpr ⟨_, find_of_lookup hOutput, bind_eq_ok_iff.mpr ⟨b, hb, ?_⟩⟩
    exact bind_eq_ok_iff.mpr ⟨_, find_of_lookup hOutline, bind_eq_ok_iff.mpr ⟨p, hp, rfl⟩⟩
  · cases k with
    | hiddenPrefix => exact hoPrefix.symm
    | includeExtras => exact hoExtras.symm
    | pretty => exact hbPretty.symm
    | lineNumbers => exact hpNumbers.symm
    | ranges => exact hpRanges.symm

end GrammarShapes.Settings
