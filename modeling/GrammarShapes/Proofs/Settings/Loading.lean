import GrammarShapes.Proofs.Settings.Assignments

set_option autoImplicit false

/-! # What loaded settings are

A loader is given files and overrides by calls in any order. If all of them assign contents, then a required
file that is not there is the one thing that can fail. The settings that are built are told by two rows of
assignments, that of the files and that of the overrides, each in the order of the calls: a setting has the
last content in the row of the overrides, or else in the row of the files, or else the built-in one. Nothing
is asked of the look-up that tells to which files the paths lead.
-/

namespace GrammarShapes.Settings

open Assignments

namespace Loader

inductive Call where
  | file (path : String)
  | optionalFile (path : String)
  | override (key : String) (v : Value)

namespace Call

def perform (l : Loader) : Call → Except Failure Loader
  | file path => .ok (l.withFile path)
  | optionalFile path => .ok (l.withOptionalFile path)
  | override key v => l.setOverride key v

def file? : Call → Option (String × Bool)
  | file path => some (path, true)
  | optionalFile path => some (path, false)
  | override _ _ => none

def overriding? : Call → Option (Setting × Content)
  | override key v => overrideAssignment? key v
  | _ => none

/-- Whether the call does nothing but assign contents of the right types to settings. -/
def fits (find : FileLookup) : Call → Bool
  | file path => (find.assignments? path).isSome
  | optionalFile path => (find.assignments? path).isSome
  | override key v => (overrideAssignment? key v).isSome

end Call

def ofCalls (calls : List Call) : Except Failure Loader :=
  calls.foldlM Call.perform new

def fileAssignments (find : FileLookup) (calls : List Call) : Assignments :=
  assignmentsOfFiles find (calls.filterMap Call.file?)

def overrideAssignments (calls : List Call) : Assignments :=
  calls.filterMap Call.overriding?

variable {find : FileLookup} {calls : List Call} {l : Loader}

theorem isSome_assignments?_of_fits (h : ∀ c ∈ calls, c.fits find = true) :
    ∀ f ∈ calls.filterMap Call.file?, (find.assignments? f.1).isSome = true := by
  intro f hf
  obtain ⟨c, hc, hFile⟩ := List.mem_filterMap.mp hf
  have hFits := h c hc
  cases c with
  | file path | optionalFile path =>
    cases hFile
    exact hFits
  | override key v => cases hFile

theorem required_mem_iff {path : String} :
    (path, true) ∈ calls.filterMap Call.file? ↔ Call.file path ∈ calls := by
  rw [List.mem_filterMap]
  constructor
  · rintro ⟨c, hc, hFile⟩
    cases c <;> cases hFile
    exact hc
  · exact fun h => ⟨_, h, rfl⟩

/-- Calls that fit add their files behind those that are there, and what they override wins. -/
theorem exists_performed (h : ∀ c ∈ calls, c.fits find = true) (hSound : Sound l.overrides) :
    ∃ l', calls.foldlM Call.perform l = .ok l' ∧ l'.files = l.files ++ calls.filterMap Call.file? ∧
      Sound l'.overrides ∧
      ∀ k, overridden l'.overrides k = ((overrideAssignments calls).latest k).or (overridden l.overrides k) := by
  induction calls generalizing l with
  | nil => exact ⟨l, rfl, (List.append_nil _).symm, hSound, fun k => rfl⟩
  | cons c calls ih =>
    obtain ⟨hHead, hTail⟩ := List.forall_mem_cons.mp h
    cases c with
    | file path =>
      obtain ⟨l', hRun, hFiles, hRest⟩ := ih (l := l.withFile path) hTail hSound
      refine ⟨l', bind_eq_ok_iff.mpr ⟨_, rfl, hRun⟩, ?_, hRest⟩
      rw [hFiles, withFile, List.append_assoc]
      rfl
    | optionalFile path =>
      obtain ⟨l', hRun, hFiles, hRest⟩ := ih (l := l.withOptionalFile path) hTail hSound
      refine ⟨l', bind_eq_ok_iff.mpr ⟨_, rfl, hRun⟩, ?_, hRest⟩
      rw [hFiles, withOptionalFile, List.append_assoc]
      rfl
    | override key v =>
      obtain ⟨a, ha⟩ := Option.isSome_iff_exists.mp hHead
      obtain ⟨hKey, hContent⟩ := key_of_overrideAssignment? ha
      have hSet : l.setOverride key v = .ok { l with overrides := insertOverride a.1.key v l.overrides } := by
        rw [setOverride, hKey]
      obtain ⟨l', hRun, hFiles, hSound', hRest⟩ :=
        ih (l := { l with overrides := insertOverride a.1.key v l.overrides }) hTail
          (hSound.insertOverride hContent)
      refine ⟨l', bind_eq_ok_iff.mpr ⟨_, hSet, hRun⟩, hFiles, hSound', fun k => ?_⟩
      have hAssigned : overrideAssignments (.override key v :: calls) = [a] ++ overrideAssignments calls :=
        List.filterMap_cons_some ha
      rw [hRest, overridden_insertOverride hContent, hAssigned, latest_append, Option.or_assoc]

/-- What the calls make of a setting: what the last override says, else the last file, else what is built in. -/
def configured (find : FileLookup) (calls : List Call) (k : Setting) : Content :=
  (((overrideAssignments calls).latest k).or ((fileAssignments find calls).latest k)).getD
    k.builtIn

theorem exists_builtIn : ∃ v, builtIn = .ok v ∧ v.Holds Setting.builtIn := by
  -- Line by line, since the kernel is slow with the characters of a long string.
  have hText : defaultText.toList = _ := String.toList_join
  have hHolds : (builtIn.toOption.map fun v => decide (v.Holds Setting.builtIn)) = some true := by
    rw [builtIn, putText, Toml.ofText, hText]
    decide +kernel
  obtain ⟨v, hv, hDecide⟩ := Option.map_eq_some_iff.mp hHolds
  exact ⟨v, eq_ok_of_toOption hv, of_decide_eq_true hDecide⟩

theorem exists_build (h : ∀ c ∈ calls, c.fits find = true) :
    ∃ l, ofCalls calls = .ok l ∧
      ((∃ path, .file path ∈ calls ∧ find path = none) →
        ∃ path, .file path ∈ calls ∧ find path = none ∧ l.build find = .error (.fileNotFound path)) ∧
      ((∀ path, .file path ∈ calls → find path ≠ none) →
        ∃ s, l.build find = .ok s ∧ ∀ k, Setting.content s k = configured find calls k) := by
  obtain ⟨l, hRun, hFiles, hSound, hOverridden⟩ :=
    exists_performed (l := new) h ⟨List.nodup_nil, fun e he => by cases he⟩
  replace hFiles : l.files = calls.filterMap Call.file? := hFiles
  obtain ⟨base, hBase, hBaseHolds⟩ := exists_builtIn
  have hFits := isSome_assignments?_of_fits h
  rw [← hFiles] at hFits
  have hRequired : ∀ path, (path, true) ∈ l.files ↔ .file path ∈ calls := fun path => by
    rw [hFiles, required_mem_iff]
  refine ⟨l, hRun, ?_, ?_⟩
  · rintro ⟨path, hPath, hNone⟩
    obtain ⟨first, hFirst, hFirstNone, hError⟩ :=
      exists_putFiles_eq_error hFits ⟨path, (hRequired path).mpr hPath, hNone⟩ hBaseHolds
    refine ⟨first, (hRequired first).mp hFirst, hFirstNone, ?_⟩
    rw [build, collect, hBase]
    change ((putFiles find l.files base >>= _) >>= ofValue) = _
    rw [hError]
    rfl
  · intro hThere
    obtain ⟨v, hPut, hHolds⟩ := exists_putFiles hFits
      (fun path hPath => hThere path ((hRequired path).mp hPath)) hBaseHolds
    obtain ⟨s, hRead, hContent⟩ := exists_ofValue (holds_putOverrides hSound hHolds)
    have hCollect : l.collect find = .ok (putOverrides l.overrides v) :=
      bind_eq_ok_iff.mpr ⟨base, hBase, bind_eq_ok_iff.mpr ⟨v, hPut, rfl⟩⟩
    refine ⟨s, bind_eq_ok_iff.mpr ⟨_, hCollect, hRead⟩, fun k => ?_⟩
    have hNew : overridden new.overrides k = none := rfl
    rw [hContent, hOverridden, hNew, Option.or_none, upon, hFiles, configured]
    cases (overrideAssignments calls).latest k <;> rfl

theorem configured_override {before after : List Call} {key : String} {v : Value} {k : Setting} {c : Content}
    (h : overrideAssignment? key v = some (k, c)) (hLast : (overrideAssignments after).latest k = none) :
    configured find (before ++ .override key v :: after) k = c := by
  have hCall : (Call.override key v).overriding? = some (k, c) := h
  have hAssigned : overrideAssignments (before ++ .override key v :: after) =
      overrideAssignments before ++ ([(k, c)] ++ overrideAssignments after) := by
    rw [overrideAssignments, List.filterMap_append, List.filterMap_cons_some hCall]
    rfl
  rw [configured, hAssigned, latest_append, latest_append, hLast]
  simp [latest]

theorem configured_file {before after : List Call} {call : Call} {f : String × Bool} {as : Assignments}
    {k : Setting} (hFile : call.file? = some f) (hAs : find.assignments? f.1 = some as)
    (hNone : as.latest k = none) :
    configured find (before ++ call :: after) k = configured find (before ++ after) k := by
  have hOverriding : call.overriding? = none := by
    cases call with
    | file path | optionalFile path => rfl
    | override key v => cases hFile
  have hOverrides : overrideAssignments (before ++ call :: after) = overrideAssignments (before ++ after) := by
    simp only [overrideAssignments, List.filterMap_append, List.filterMap_cons_none hOverriding]
  have hFiles : fileAssignments find (before ++ call :: after) =
      fileAssignments find before ++ (as ++ fileAssignments find after) := by
    simp only [fileAssignments, assignmentsOfFiles, List.filterMap_append, List.filterMap_cons_some hFile,
      List.flatMap_append, List.flatMap_cons, hAs, Option.getD_some]
  have hFiles' : fileAssignments find (before ++ after) =
      fileAssignments find before ++ fileAssignments find after := by
    simp only [fileAssignments, assignmentsOfFiles, List.filterMap_append, List.flatMap_append]
  rw [configured, configured, hOverrides, hFiles, hFiles', latest_append, latest_append, latest_append, hNone,
    Option.or_none]

/-- After calls that do nothing but assign contents, either a required file is missing and named, or there are
settings, each with its last content. An override wins over files that are named later. A file leaves alone
what it does not assign: without it there are settings, too, and they agree there. -/
theorem build_ofCalls (find : FileLookup) (calls : List Call) (hFits : ∀ c ∈ calls, c.fits find = true) :
    ∃ l, ofCalls calls = .ok l ∧
      ((∃ path, .file path ∈ calls ∧ find path = none) →
        ∃ path, .file path ∈ calls ∧ find path = none ∧ l.build find = .error (.fileNotFound path)) ∧
      ((∀ path, .file path ∈ calls → find path ≠ none) →
        ∃ s, l.build find = .ok s ∧
          (∀ k, Setting.content s k = configured find calls k) ∧
          (∀ before key v after k c, calls = before ++ .override key v :: after →
            overrideAssignment? key v = some (k, c) → (overrideAssignments after).latest k = none →
              Setting.content s k = c) ∧
          (∀ before call after f as, calls = before ++ call :: after → call.file? = some f →
            find.assignments? f.1 = some as →
              ∃ l' s', ofCalls (before ++ after) = .ok l' ∧ l'.build find = .ok s' ∧
                ∀ k, as.latest k = none → Setting.content s k = Setting.content s' k)) := by
  obtain ⟨l, hRun, hMissing, hBuild⟩ := exists_build hFits
  refine ⟨l, hRun, hMissing, fun hThere => ?_⟩
  obtain ⟨s, hs, hContent⟩ := hBuild hThere
  refine ⟨s, hs, hContent, ?_, ?_⟩
  · rintro before key v after k c rfl hOverride hLast
    rw [hContent, configured_override hOverride hLast]
  · rintro before call after f as rfl hFile hAs
    have hSub : ∀ c ∈ before ++ after, c ∈ before ++ call :: after := fun c hc =>
      List.mem_append.mpr ((List.mem_append.mp hc).imp_right (List.mem_cons_of_mem _))
    obtain ⟨l', hRun', -, hBuild'⟩ := exists_build fun c hc => hFits c (hSub c hc)
    obtain ⟨s', hs', hContent'⟩ := hBuild' fun path hPath => hThere path (hSub _ hPath)
    refine ⟨l', s', hRun', hs', fun k hNone => ?_⟩
    rw [hContent, hContent', configured_file hFile hAs hNone]

/-- Two files that set different settings of the section of the schema, one of them above the working
directory. -/
def layeredFiles : FileSystem :=
  FileSystem.ofList ["home", "work"]
    [("output.toml", "[output]\npretty = false\n\n[schema]\ninclude_extras = false\n"),
      ("/home/prefix.toml", "[schema]\nhidden_prefix = \"~\"\n")]

/-- An override of a setting that a later file assigns, and an optional file that is not there. -/
def layeredCalls : List Call :=
  [.override "output.pretty" (.scalar none (.boolean true)), .file "/home/work/output.toml",
    .optionalFile "absent.toml", .file "../prefix"]

theorem build_layeredCalls :
    (∀ c ∈ layeredCalls, c.fits layeredFiles.find? = true) ∧
      ∃ l s, ofCalls layeredCalls = .ok l ∧ l.build layeredFiles.find? = .ok s ∧
        Setting.content s .pretty = .truth true ∧ Setting.content s .includeExtras = .truth false ∧
        Setting.content s .hiddenPrefix = .character '~' ∧ Setting.content s .lineNumbers = .truth false := by
  have hFits : ∀ c ∈ layeredCalls, c.fits layeredFiles.find? = true := by decide +kernel
  have hThere : ∀ path, .file path ∈ layeredCalls → layeredFiles.find? path ≠ none := by
    intro path hPath
    simp only [layeredCalls, List.mem_cons, reduceCtorEq, Call.file.injEq, List.not_mem_nil, false_or,
      or_false] at hPath
    rcases hPath with rfl | rfl <;> decide +kernel
  have hFiles : fileAssignments layeredFiles.find? layeredCalls =
      [(.pretty, .truth false), (.includeExtras, .truth false), (.hiddenPrefix, .character '~')] := by
    decide +kernel
  obtain ⟨l, hRun, -, hBuild⟩ := build_ofCalls layeredFiles.find? layeredCalls hFits
  obtain ⟨s, hs, hContent, hOverrides, -⟩ := hBuild hThere
  refine ⟨hFits, l, s, hRun, hs, ?_, ?_, ?_, ?_⟩
  · have hOverride : overrideAssignment? "output.pretty" (.scalar none (.boolean true)) =
        some (.pretty, .truth true) := by
      decide +kernel
    exact hOverrides [] _ _ _ _ _ rfl hOverride rfl
  all_goals
    rw [hContent, configured, hFiles]
    decide +kernel

end Loader

end GrammarShapes.Settings
