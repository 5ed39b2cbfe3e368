import GrammarShapes.Grammar.Loading
import GrammarShapes.Proofs.Grammar.Parts
import GrammarShapes.Proofs.Grammar.Reload
import GrammarShapes.Proofs.Grammar.Sorted
import GrammarShapes.Proofs.Text.ByteOrder

set_option autoImplicit false

/-! # Two ways to load a grammar

A text is loaded as it is read, and the value of a text in its sorted form. Both take for a name the rule
that was written last. The first keeps the names in the order in which they came; the second has them in
ascending order.
-/

namespace GrammarShapes

open Json (Draft FilledOnce)

section Readings

variable {ε α β : Type} (read : β → Except ε α) {ms : List (String × β)} {entries : List (String × α)}

theorem map_some_eq_map_read
    (h : List.Forall₂ (fun m e => m.1 = e.1 ∧ read m.2 = .ok e.2) ms entries) :
    entries.map (fun e => (e.1, some e.2)) = ms.map fun m => (m.1, (read m.2).toOption) := by
  induction h with
  | nil => rfl
  | cons hHead _ ih =>
    rw [List.map_cons, List.map_cons, ih, hHead.1, hHead.2]
    rfl

theorem map_names_eq (h : List.Forall₂ (fun m e => m.1 = e.1 ∧ read m.2 = .ok e.2) ms entries) :
    entries.map (·.1) = ms.map (·.1) := by
  have hNames := congrArg (List.map (·.1)) (map_some_eq_map_read read h)
  simpa only [List.map_map, Function.comp_def] using hNames

theorem exists_read_of_mem
    (h : List.Forall₂ (fun m e => m.1 = e.1 ∧ read m.2 = .ok e.2) ms entries) :
    ∀ m ∈ ms, ∃ a, read m.2 = .ok a := by
  induction h with
  | nil => exact nofun
  | cons hHead _ ih => exact List.forall_mem_cons.mpr ⟨⟨_, hHead.2⟩, ih⟩

theorem exists_forall₂_read (h : ∀ m ∈ ms, ∃ a, read m.2 = .ok a) :
    ∃ entries : List (String × α),
      List.Forall₂ (fun m e => m.1 = e.1 ∧ read m.2 = .ok e.2) ms entries := by
  induction ms with
  | nil => exact ⟨[], .nil⟩
  | cons m ms ih =>
    obtain ⟨⟨a, hRead⟩, hRest⟩ := List.forall_mem_cons.mp h
    obtain ⟨entries, hEntries⟩ := ih hRest
    exact ⟨(m.1, a) :: entries, .cons ⟨rfl, hRead⟩ hEntries⟩

theorem get?_ofEntries_of_read
    (h : List.Forall₂ (fun m e => m.1 = e.1 ∧ read m.2 = .ok e.2) ms entries) (name : String) :
    (Directory.ofEntries entries).get? name =
      (valuesAt name ms).getLast?.bind fun v => (read v).toOption := by
  have hSome : valuesAt name (entries.map fun e => (e.1, some e.2)) = (valuesAt name entries).map some :=
    valuesAt_map (fun _ => Iff.rfl) some entries
  have hRead : valuesAt name (ms.map fun m => (m.1, (read m.2).toOption)) =
      (valuesAt name ms).map fun v => (read v).toOption :=
    valuesAt_map (fun _ => Iff.rfl) (fun v => (read v).toOption) ms
  have hLast := congrArg List.getLast? (hSome.symm.trans ((congrArg _ (map_some_eq_map_read read h)).trans hRead))
  rw [List.getLast?_map, List.getLast?_map] at hLast
  rw [Directory.get?_ofEntries]
  cases hEntry : (valuesAt name entries).getLast? with
  | none =>
    rw [hEntry, Option.map_none] at hLast
    rw [Option.map_eq_none_iff.mp hLast.symm, Option.bind_none]
  | some a =>
    rw [hEntry, Option.map_some] at hLast
    obtain ⟨v, hValue, hSame⟩ := Option.map_eq_some_iff.mp hLast.symm
    rw [hValue, Option.bind_some, hSame]

theorem eq_of_rel_eq {x y : Option α} (h : Option.Rel Eq x y) : x = y := by
  cases h with
  | none => rfl
  | some hSame => rw [hSame]

end Readings

namespace Grammar

theorem readName_sorted {v : Json} {name : Option String} (h : readName (.ofJson v) = .ok name) :
    readName (.ofJson v.sorted) = .ok name := by
  cases v with
  | array _ | object _ => cases h
  | null | boolean _ | number _ | string _ => exact h

theorem readRuleList_sorted {v : Json} {rs : List Rule} (h : readRuleList (.ofJson v) = .ok rs) :
    readRuleList (.ofJson v.sorted) = .ok rs := by
  obtain ⟨vs, hArray, hRead⟩ := (Draft.asList_eq_ok_iff Rule.readsWhole_read).mp h
  obtain rfl := Draft.ofJson_injective hArray
  refine (Draft.asList_eq_ok_iff Rule.readsWhole_read).mpr ⟨Json.sortedItems vs, rfl, ?_⟩
  rw [Json.sortedItems_eq_map, List.forall₂_map_left_iff]
  exact hRead.imp fun _ _ => Rule.read_sorted

structure SortedCopy (d d' : Directory Rule) : Prop where
  get?_eq (name : String) : d'.get? name = d.get? name
  pairwise_names : d'.names.Pairwise (· < ·)

theorem names_ofEntries_of_nodup {α : Type} {entries : List (String × α)} (h : (entries.map (·.1)).Nodup) :
    (Directory.ofEntries entries).names = entries.map (·.1) :=
  congrArg (List.map Prod.fst) (Directory.entries_foldl_insert (d := .empty) h)

theorem exists_read_of_mem_sortedMembers {ms : List (String × Json)} {m : String × Json}
    (hRead : ∀ m ∈ ms, ∃ r, Rule.read (.ofJson m.2) = .ok r) (hm : m ∈ Json.sortedMembers ms) :
    ∃ r, Rule.read (.ofJson m.2) = .ok r := by
  obtain ⟨name, w⟩ := m
  have hValue : w ∈ valuesAt name (Json.sortedMembers ms) := mem_valuesAt_iff.mpr hm
  rw [Json.valuesAt_sortedMembers, Option.mem_toList, Option.map_eq_some_iff] at hValue
  obtain ⟨v, hLast, rfl⟩ := hValue
  obtain ⟨r, hRule⟩ := hRead _ (mem_valuesAt_iff.mp (List.mem_of_getLast? hLast))
  exact ⟨r, Rule.read_sorted hRule⟩

theorem exists_readRules_sorted {v : Json} {d : Directory Rule} (h : readRules (.ofJson v) = .ok d) :
    ∃ d', readRules (.ofJson v.sorted) = .ok d' ∧ SortedCopy d d' := by
  obtain ⟨ms, entries, hObject, hEntries, rfl⟩ := (Draft.asMap_insert_eq_ok_iff Rule.readsWhole_read).mp h
  obtain rfl := Draft.ofJson_injective hObject
  have hRead : ∀ m ∈ ms, ∃ r, Rule.read (.ofJson m.2) = .ok r :=
    exists_read_of_mem (fun v => Rule.read (.ofJson v)) hEntries
  obtain ⟨entries', hEntries'⟩ := exists_forall₂_read (fun v => Rule.read (.ofJson v))
    fun m hm => exists_read_of_mem_sortedMembers hRead hm
  refine ⟨.ofEntries entries', (Draft.asMap_insert_eq_ok_iff Rule.readsWhole_read).mpr
    ⟨Json.sortedMembers ms, entries', rfl, hEntries', rfl⟩, ?_, ?_⟩
  · -- Either directory has the rule that is read from the last value, and sorting keeps that value.
    intro name
    rw [get?_ofEntries_of_read (fun v => Rule.read (.ofJson v)) hEntries,
      get?_ofEntries_of_read (fun v => Rule.read (.ofJson v)) hEntries', Json.valuesAt_sortedMembers]
    cases hLast : (valuesAt name ms).getLast? with
    | none => rfl
    | some v =>
      obtain ⟨r, hRule⟩ := hRead _ (mem_valuesAt_iff.mp (List.mem_of_getLast? hLast))
      change (Rule.read (.ofJson v.sorted)).toOption = (Rule.read (.ofJson v)).toOption
      rw [hRule, Rule.read_sorted hRule]
  · have hSorted := Json.pairwise_sortedMembers ms
    rw [← map_names_eq (fun v => Rule.read (.ofJson v)) hEntries'] at hSorted
    have hNodup : (entries'.map (·.1)).Nodup := by
      apply hSorted.imp
      rintro s _ hLess rfl
      exact String.lt_irrefl s hLess
    rwa [names_ofEntries_of_nodup hNodup]

namespace Part

def valuesIn (p : Part) : Json → List Json
  | .object ms => valuesAt p.key ms
  | .array vs => vs[p.place]?.toList
  | _ => []

theorem draftsIn_ofJson (p : Part) (v : Json) : p.draftsIn (.ofJson v) = (p.valuesIn v).map .ofJson := by
  cases v with
  | object ms =>
    rw [Draft.ofJson, Draft.ofMembers_eq_map]
    exact valuesAt_map (fun _ => ⟨Except.ok.inj, congrArg Except.ok⟩) Draft.ofJson ms
  | array vs =>
    rw [Draft.ofJson, Draft.ofItems_eq_map, draftsIn, valuesIn, List.getElem?_map]
    cases vs[p.place]? <;> rfl
  | null | boolean _ | number _ | string _ => rfl

theorem valuesIn_sorted (p : Part) (v : Json) :
    p.valuesIn v.sorted = ((p.valuesIn v).getLast?.map Json.sorted).toList := by
  cases v with
  | object ms => exact Json.valuesAt_sortedMembers p.key ms
  | array vs =>
    rw [Json.sorted, Json.sortedItems_eq_map, valuesIn, valuesIn, List.getElem?_map]
    cases vs[p.place]? <;> rfl
  | null | boolean _ | number _ | string _ => rfl

/-- How the sorted form of a document gives a part: rules in order, and the other parts as they were. -/
def Kept : (p : Part) → p.Value → p.Value → Prop
  | .rules => SortedCopy
  | _ => Eq

theorem exists_readDraft_sorted {p : Part} {v : Json} {x : p.Value} (h : p.readDraft (.ofJson v) = .ok x) :
    ∃ y, p.readDraft (.ofJson v.sorted) = .ok y ∧ p.Kept x y := by
  cases p with
  | name => exact ⟨x, readName_sorted h, rfl⟩
  | rules => exact exists_readRules_sorted h
  | extras | externals => exact ⟨x, readRuleList_sorted h, rfl⟩

theorem exists_filled_sorted {p : Part} {v : Json} {slot : Option p.Value}
    (h : FilledOnce p.readDraft none (p.draftsIn (.ofJson v)) slot) :
    ∃ slot', FilledOnce p.readDraft none (p.draftsIn (.ofJson v.sorted)) slot' ∧
      Option.Rel p.Kept slot slot' := by
  rw [draftsIn_ofJson] at h
  rw [draftsIn_ofJson, valuesIn_sorted]
  generalize p.valuesIn v = vs at h
  cases vs with
  | nil =>
    obtain rfl := Json.filledOnce_nil_iff.mp h
    exact ⟨none, .kept, .none⟩
  | cons w ws =>
    obtain ⟨-, x, hRead, hRest⟩ := Json.filledOnce_cons_iff.mp h
    cases ws with
    | nil =>
      obtain rfl := Json.filledOnce_nil_iff.mp hRest
      obtain ⟨y, hSorted, hKept⟩ := exists_readDraft_sorted hRead
      exact ⟨some y, .filled rfl hSorted, .some hKept⟩
    | cons w' ws =>
      obtain ⟨hNone, -⟩ := Json.filledOnce_cons_iff.mp hRest
      cases hNone

end Part

theorem ofFields_eq_ok_iff {fs : Fields} {g : Grammar} :
    ofFields fs = .ok g ↔ fs.rules = some g.rules ∧ g.name = fs.name.getD none ∧
      g.extras = fs.extras.getD [] ∧ g.externals = fs.externals.getD [] := by
  constructor
  · intro h
    obtain ⟨rules, hRequired, hSame⟩ := bind_eq_ok_iff.mp h
    cases hSame
    exact ⟨Json.required_eq_ok_iff.mp hRequired, rfl, rfl, rfl⟩
  · obtain ⟨name, rules, extras, externals⟩ := g
    rintro ⟨hRules, rfl, rfl, rfl⟩
    exact bind_eq_ok_iff.mpr ⟨rules, Json.required_eq_ok_iff.mpr hRules, rfl⟩

theorem isDocument_sorted {v : Json} (h : IsDocument (.ofJson v)) : IsDocument (.ofJson v.sorted) := by
  cases v with
  | object ms =>
    refine ⟨rfl, ?_⟩
    rw [Draft.ofMembers_eq_map, List.forall_mem_map]
    exact fun m _ _ => ⟨⟨m.1, rfl⟩, Draft.pass_ofJson m.2⟩
  | array vs =>
    obtain ⟨-, hLength⟩ := h
    rw [Draft.ofItems_eq_map, List.length_map] at hLength
    refine ⟨rfl, ?_⟩
    rwa [Draft.ofItems_eq_map, List.length_map, Json.sortedItems_eq_map, List.length_map]
  | null | boolean _ | number _ | string _ => exact h

/-- A document that is a grammar is one in its sorted form, with the same parts. -/
theorem exists_read_sorted {surplus : Json.Surplus} (surplus' : Json.Surplus) {v : Json} {g : Grammar}
    (h : read surplus (.ofJson v) = .ok g) :
    ∃ g', read surplus' (.ofJson v.sorted) = .ok g' ∧ g'.name = g.name ∧ g'.extras = g.extras ∧
      g'.externals = g.externals ∧ SortedCopy g.rules g'.rules := by
  obtain ⟨hDocument, fs, hParts, hFields⟩ := read_eq_ok_iff.mp h
  obtain ⟨hRules, hName, hExtras, hExternals⟩ := ofFields_eq_ok_iff.mp hFields
  choose slot hSlot hKept using fun p => Part.exists_filled_sorted (hParts p)
  have hRulesKept := hKept .rules
  rw [show fs.get .rules = some g.rules from hRules] at hRulesKept
  cases hSlotRules : slot .rules with
  | none =>
    rw [hSlotRules] at hRulesKept
    cases hRulesKept
  | some rules' =>
    rw [hSlotRules] at hRulesKept
    cases hRulesKept with
    | some hCopy =>
      refine ⟨⟨g.name, rules', g.extras, g.externals⟩, read_eq_ok_iff.mpr ⟨isDocument_sorted hDocument,
        ⟨slot .name, slot .rules, slot .extras, slot .externals⟩, ?_,
        ofFields_eq_ok_iff.mpr ⟨hSlotRules, ?_, ?_, ?_⟩⟩, rfl, rfl, rfl, hCopy⟩
      · intro p
        cases p <;> exact hSlot _
      · rw [hName, show fs.name = slot .name from eq_of_rel_eq (hKept .name)]
      · rw [hExtras, show fs.extras = slot .extras from eq_of_rel_eq (hKept .extras)]
      · rw [hExternals, show fs.externals = slot .externals from eq_of_rel_eq (hKept .externals)]

/-- The rules of a grammar that a draft gives are all whole, and the names and rules are those of the
entries: names as they first come, rules as they come last. -/
theorem exists_entries_of_read {surplus : Json.Surplus} {d : Draft} {g : Grammar}
    (h : read surplus d = .ok g) :
    ∃ (entries : List (String × Json)) (rules : List (String × Rule)),
      Part.rules.draftsIn d = [.ofJson (.object entries)] ∧
      List.Forall₂ (fun e r => e.1 = r.1 ∧ Rule.read (.ofJson e.2) = .ok r.2) entries rules ∧
      g.rules = .ofEntries rules := by
  obtain ⟨-, fs, hParts, hFields⟩ := read_eq_ok_iff.mp h
  obtain ⟨hRules, -⟩ := ofFields_eq_ok_iff.mp hFields
  have hSlot := hParts .rules
  rw [show fs.get .rules = some g.rules from hRules] at hSlot
  generalize hDrafts : Part.rules.draftsIn d = drafts at hSlot
  cases hSlot with
  | filled _ hRead =>
    obtain ⟨entries, rules, rfl, hEntries, hSame⟩ :=
      (Draft.asMap_insert_eq_ok_iff Rule.readsWhole_read).mp hRead
    exact ⟨entries, rules, rfl, hEntries, hSame⟩

theorem rules_foldl_withRule (rules : List (String × Rule)) (g : Grammar) :
    (rules.foldl (fun g e => g.withRule e.1 e.2) g).rules =
      rules.foldl (fun d e => d.insert e.1 e.2) g.rules := by
  induction rules generalizing g with
  | nil => rfl
  | cons e rules ih => exact ih (g.withRule e.1 e.2)

theorem read_root_of_load {source : String} {g : Grammar} (h : (load source).outcome = .ok g) :
    read .inText (Json.Document.ofText (.ofString source)).root = .ok g := by
  obtain ⟨g', hRead, hEnd⟩ := bind_eq_ok_iff.mp (ofText_of_outcome_loading h)
  split at hEnd
  · cases hEnd
  · cases hEnd
    exact hRead

theorem root_of_read {d : Json.Document} {v : Json} (h : d.read = .ok v) : d.root = .ofJson v := by
  obtain ⟨w, hRead, hEnd⟩ := bind_eq_ok_iff.mp h
  split at hEnd
  · cases hEnd
  · cases hEnd
    exact Draft.read_eq_ok_iff.mp hRead

/-- A grammar that is loaded from a text has the names of the entries of its rules in the order in which
they first come, each with the rule that is read from its last entry. If the text is also one of a value,
the sorted form of that value is a grammar with the same parts and the same rule at every name, and its
names come in ascending order of their bytes. -/
theorem load_of_entries_and_loadValue {source : String} {g : Grammar} (h : (load source).outcome = .ok g) :
    (∃ (entries : List (String × Json)) (rules : List (String × Rule)),
      Part.rules.draftsIn (Json.Document.ofText (.ofString source)).root = [.ofJson (.object entries)] ∧
      List.Forall₂ (fun e r => e.1 = r.1 ∧ Rule.read (.ofJson e.2) = .ok r.2) entries rules ∧
      g.rules.names = firstSeen (entries.map (·.1)) ∧
      (∀ name, g.rules.get? name = (valuesAt name rules).getLast?) ∧
      g.rules = (rules.foldl (fun g e => g.withRule e.1 e.2) ({} : Grammar)).rules) ∧
    ∀ v, (Json.Document.ofText (.ofString source)).read = .ok v →
      ∃ g', (loadValue v).outcome = .ok g' ∧ g'.name = g.name ∧ g'.extras = g.extras ∧
        g'.externals = g.externals ∧ (∀ name, g'.rules.get? name = g.rules.get? name) ∧
        g'.rules.names.Pairwise fun s t => Text.utf8 s < Text.utf8 t := by
  have hRoot := read_root_of_load h
  constructor
  · obtain ⟨entries, rules, hDrafts, hEntries, hRules⟩ := exists_entries_of_read hRoot
    refine ⟨entries, rules, hDrafts, hEntries, ?_, fun name => ?_, ?_⟩
    · rw [hRules, Directory.names_ofEntries, map_names_eq (fun v => Rule.read (.ofJson v)) hEntries]
    · rw [hRules, Directory.get?_ofEntries]
    · rw [hRules, rules_foldl_withRule]
      rfl
  · intro v hValue
    rw [root_of_read hValue] at hRoot
    obtain ⟨g', hRead, hName, hExtras, hExternals, hCopy⟩ := exists_read_sorted .inValue hRoot
    refine ⟨g', ?_, hName, hExtras, hExternals, hCopy.get?_eq, hCopy.pairwise_names.imp Text.utf8_lt_of_lt⟩
    rw [loadValue, ofValue, hRead]
    rfl

/-- The rule `b` is given twice, the second time as a list, and `a` has a member that is passed over. -/
def repeatedText : String :=
  "\x7b\"rules\":\x7b\"b\":\x7b\"type\":\"BLANK\"\x7d,\"a\":\x7b\"value\":\"x\",\"x\":0,\"type\":\"STRING\"\x7d," ++
    "\"b\":[\"SYMBOL\",\"a\"]\x7d\x7d"

def repeatedGrammar : Grammar :=
  { rules := .ofEntries [("b", .symbol "a"), ("a", .literal "x")] }

theorem load_and_loadValue_repeatedText :
    (load repeatedText).outcome = .ok repeatedGrammar ∧ repeatedGrammar.rules.names = ["b", "a"] ∧
      ∃ v g', (Json.Document.ofText (.ofString repeatedText)).read = .ok v ∧
        (loadValue v).outcome = .ok g' ∧ (∀ name, g'.rules.get? name = repeatedGrammar.rules.get? name) ∧
        g'.rules.names.Pairwise fun s t => Text.utf8 s < Text.utf8 t := by
  have hSome : (load repeatedText).outcome.toOption = some repeatedGrammar := by decide +kernel
  have hLoad : (load repeatedText).outcome = .ok repeatedGrammar := eq_ok_of_toOption hSome
  have hIsSome : (Json.Document.ofText (.ofString repeatedText)).read.toOption.isSome = true := by
    decide +kernel
  obtain ⟨v, hOption⟩ := Option.isSome_iff_exists.mp hIsSome
  have hValue := eq_ok_of_toOption hOption
  obtain ⟨g', hLoadValue, -, -, -, hRules, hNames⟩ := (load_of_entries_and_loadValue hLoad).2 v hValue
  exact ⟨hLoad, rfl, v, g', hValue, hLoadValue, hRules, hNames⟩

end Grammar

end GrammarShapes
