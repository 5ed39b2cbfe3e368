import GrammarShapes.Cursor.Outline
import GrammarShapes.Schema.Options
import GrammarShapes.Settings.Failure
import GrammarShapes.Settings.Layer
import GrammarShapes.Text.Lowercase

set_option autoImplicit false

/-! # Settings

The settings stand in three sections: the options of schema generation, how a schema is written, and what
an outline shows. A section is a table, where names that are not known are passed over, or an array of its
settings in order. Truth values may also be given as numbers or words.
-/

namespace GrammarShapes

structure Settings where
  options : Options
  /-- Whether schemas are written with indentation. -/
  pretty : Bool
  outline : Outline
deriving DecidableEq

namespace Settings

/-- The truth value of a word in lower-case letters. -/
def booleanWord? (word : String) : Option Bool :=
  if word ∈ ["1", "true", "on", "yes"] then some true
  else if word ∈ ["0", "false", "off", "no"] then some false
  else none

/-- Whether the bits are those of a zero, of either sign. -/
def isZero (bits : UInt64) : Bool :=
  bits.toNat % 9223372036854775808 = 0

/-- The truth value that a value stands for. -/
def readBoolean (key : String) (v : Value) : Except Failure Bool :=
  match v with
  | .scalar _ (.boolean b) => .ok b
  | .scalar _ (.integer n) => .ok (n != 0)
  | .scalar _ (.float bits) => .ok !isZero bits
  | .scalar file (.string s) =>
      let word := Text.lowercase s
      match booleanWord? word with
      | some b => .ok b
      | none => .error (.notBoolean (Value.scalar file (.string word)).description key file)
  | v => .error (.notBoolean v.description key v.file)

/-- The only character of a string. -/
def readCharacter (v : Value) : Except Failure Char :=
  match v with
  | .scalar _ (.string s) =>
      match s.toList with
      | [c] => .ok c
      | _ => .error (.wrongValue v.description "a character")
  | v => .error (.wrongType v.description "a character")

/-- A setting of a section: its key, its value if it has one, and what its absence means. -/
structure Part where
  key : String
  value : Option Value
  absence : Failure

namespace Part

/-- What the part's value is read as, if there is a value. -/
def read {α : Type} (p : Part) (read : String → Value → Except Failure α) :
    Except Failure (Option α) :=
  match p.value with
  | none => .ok none
  | some v => (read p.key v).map some

def demand {α : Type} (p : Part) : Option α → Except Failure α
  | some a => .ok a
  | none => .error p.absence

end Part

/-- How many elements a section written as an array is expected to have. -/
def elements (n : Nat) : String :=
  if n = 1 then "1 element" else toString n ++ " elements"

/-- A section of the settings: its name, its title, and the names of its settings in order. -/
structure Section where
  name : String
  title : String
  fields : List String

namespace Section

def schema : Section := ⟨"schema", "struct SchemaConfig", ["hidden_prefix", "include_extras"]⟩

def output : Section := ⟨"output", "struct OutputConfig", ["pretty"]⟩

def outline : Section := ⟨"treeviz", "struct TreevizConfig", ["show_linum", "show_ranges"]⟩

/-- The setting with the given place among those of the section. -/
def part (s : Section) (v : Value) (i : Nat) : Except Failure Part :=
  let field := s.fields.getD i ""
  match v with
  | .table _ entries => .ok ⟨s.name ++ "." ++ field, entries.lookup field, .missingField field⟩
  | .array _ items =>
      .ok ⟨s.name ++ "[" ++ toString i ++ "]", items[i]?,
        .wrongLength items.length (s.title ++ " with " ++ elements s.fields.length)⟩
  | v => .error (.wrongType v.description s.title)

def find (s : Section) (root : Value) : Except Failure Value :=
  match root.entries.lookup s.name with
  | some v => .ok v
  | none => .error (.missingField s.name)

end Section

def readOptions (v : Value) : Except Failure Options := do
  let hiddenPrefix ← Section.schema.part v 0
  let includeExtras ← Section.schema.part v 1
  let c ← hiddenPrefix.read fun _ => readCharacter
  let b ← includeExtras.read readBoolean
  return ⟨← hiddenPrefix.demand c, ← includeExtras.demand b⟩

def readPretty (v : Value) : Except Failure Bool := do
  let pretty ← Section.output.part v 0
  let b ← pretty.read readBoolean
  pretty.demand b

def readOutline (v : Value) : Except Failure Outline := do
  let lineNumbers ← Section.outline.part v 0
  let ranges ← Section.outline.part v 1
  let l ← lineNumbers.read readBoolean
  let r ← ranges.read readBoolean
  return ⟨← lineNumbers.demand l, ← ranges.demand r⟩

def ofValue (root : Value) : Except Failure Settings := do
  let options ← readOptions (← Section.schema.find root)
  let pretty ← readPretty (← Section.output.find root)
  let outline ← readOutline (← Section.outline.find root)
  return ⟨options, pretty, outline⟩

end Settings

end GrammarShapes
