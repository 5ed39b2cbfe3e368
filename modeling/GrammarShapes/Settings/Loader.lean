import GrammarShapes.Settings.Basic
import GrammarShapes.Settings.Files
import GrammarShapes.Toml.Document

set_option autoImplicit false

/-! # Loading settings

Settings are put together from the built-in document at the bottom, then files in the order in which they
were named, then overrides, whenever they were set. A file may be required or optional; one that is there has
to be a document in either case. Nothing is said about the settings before everything has been put together.

Where files are is not known here: a look-up says to which file a path leads.
-/

namespace GrammarShapes.Settings

/-- The built-in document. -/
def defaultText : String :=
  String.join
    ["# Built-in defaults for nodeshape. User files layered on top only need the keys they change.\n",
      "\n",
      "[schema]\n",
      "# Rules whose name starts with this character are inlined instead of appearing as shapes.\n",
      "hidden_prefix = \"_\"\n",
      "# Add the shapes of the grammar's extras (comments, whitespace) to every collection rule.\n",
      "include_extras = true\n",
      "\n",
      "[output]\n",
      "# Pretty-print schema JSON.\n",
      "pretty = true\n",
      "\n",
      "[treeviz]\n",
      "show_linum = false\n",
      "show_ranges = false\n"]

/-- What settings are put together from, beside the built-in document. -/
structure Loader where
  /-- The paths of the files, in order, each with whether the file is required. -/
  files : List (String × Bool) := []
  /-- The overrides; their keys are distinct. -/
  overrides : List (Key × Value) := []

namespace Loader

def new : Loader := {}

def withFile (l : Loader) (path : String) : Loader :=
  { l with files := l.files ++ [(path, true)] }

def withOptionalFile (l : Loader) (path : String) : Loader :=
  { l with files := l.files ++ [(path, false)] }

/-- Gives a key its value among overrides; a key that is there keeps its place. -/
def insertOverride (key : Key) (v : Value) : List (Key × Value) → List (Key × Value)
  | [] => [(key, v)]
  | (other, w) :: rest =>
      if other = key then (other, v) :: rest else (other, w) :: insertOverride key v rest

def setOverride (l : Loader) (key : String) (v : Value) : Except Failure Loader :=
  match Key.ofText key with
  | .ok key => .ok { l with overrides := insertOverride key v l.overrides }
  | .error fault => .error (.badKey fault)

/-- The key that a name at the top of a file stands for; one that is no key stands for itself. -/
def topKey (name : String) : Key :=
  match Key.ofText name with
  | .ok key => key
  | .error _ => [.name name]

/-- Puts the entries of a document upon what lies below. -/
def putEntries (file : Option String) (entries : List (String × Toml.Value)) (below : Value) : Value :=
  entries.foldl (fun v e => Value.put (Value.ofToml file e.2) (topKey e.1) v) below

def putText (file : Option String) (text : String) (below : Value) : Except Failure Value :=
  match Toml.ofText text with
  | some entries => .ok (putEntries file entries below)
  | none => .error (.unreadable file)

def putFile (find : FileLookup) (path : String) (required : Bool) (below : Value) : Except Failure Value :=
  match find path with
  | none => if required then .error (.fileNotFound path) else .ok below
  | some file => putText (some file.name) file.text below

def putFiles (find : FileLookup) : List (String × Bool) → Value → Except Failure Value
  | [], below => .ok below
  | (path, required) :: rest, below => do
      putFiles find rest (← putFile find path required below)

def putOverrides (overrides : List (Key × Value)) (below : Value) : Value :=
  overrides.foldl (fun v e => Value.put e.2 e.1 v) below

/-- What lies at the bottom. -/
def builtIn : Except Failure Value :=
  putText none defaultText (.table none [])

def collect (l : Loader) (find : FileLookup) : Except Failure Value := do
  return putOverrides l.overrides (← putFiles find l.files (← builtIn))

def build (l : Loader) (find : FileLookup) : Except Failure Settings := do
  ofValue (← l.collect find)

end Loader

end GrammarShapes.Settings
