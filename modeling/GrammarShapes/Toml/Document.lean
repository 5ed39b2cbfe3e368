import GrammarShapes.Toml.Quoted
import GrammarShapes.Toml.Table
import GrammarShapes.Toml.Word

set_option autoImplicit false

/-! # TOML documents

A document is a sequence of statements, each on a line of its own: a value under a name, the header of a
table, or the header of an element of an array of tables. Values nest to a depth of `nestingLimit`, and a
name has at most as many parts.
-/

namespace GrammarShapes.Toml

def nestingLimit : Nat := 79

def isBareKeyPart (c : Char) : Bool :=
  c.isAlphanum || c = '_' || c = '-'

def readKey : Reader String
  | '"' :: rest => readLineString ('"' :: rest)
  | '\'' :: rest => readLineString ('\'' :: rest)
  | cs =>
      let key := cs.takeWhile isBareKeyPart
      if key.isEmpty then none else some (String.ofList key, cs.dropWhile isBareKeyPart)

/-- Reads a name of at most `room` parts with points between them. -/
def readName : Nat → Reader (List String)
  | 0, _ => none
  | room + 1, cs => do
      let (key, rest) ← readKey (skipBlanks cs)
      match skipBlanks rest with
      | '.' :: rest => do
          let (keys, rest) ← readName room rest
          some (key :: keys, rest)
      | rest => some ([key], rest)

def readPair (readValue : Reader Value) : Reader (List String × Value) := fun cs => do
  let (name, rest) ← readName nestingLimit cs
  match rest with
  | '=' :: rest => do
      let (v, rest) ← readValue (skipBlanks rest)
      some ((name, v), rest)
  | _ => none

/-- Reads the items of an array, at most `count` of them, up to the closing bracket. -/
def readItems (readValue : Reader Value) : Nat → Reader (List Value)
  | 0, _ => none
  | count + 1, cs =>
      match skipGap false cs with
      | none => none
      | some (']' :: rest) => some ([], rest)
      | some start => do
          let (v, rest) ← readValue start
          match ← skipGap false rest with
          | ',' :: rest => do
              let (vs, rest) ← readItems readValue count rest
              some (v :: vs, rest)
          | ']' :: rest => some ([v], rest)
          | _ => none

/-- Reads the members of a table on one line, at most `count` of them, up to the closing brace. -/
def readMembers (readValue : Reader Value) (entries : Entry.Entries) : Nat → Reader Entry.Entries
  | 0, _ => none
  | count + 1, cs => do
      let ((name, v), rest) ← readPair readValue cs
      let entries ← Entry.assign v name entries
      match skipBlanks rest with
      | ',' :: rest => readMembers readValue entries count rest
      | '\x7d' :: rest => some (entries, rest)
      | _ => none

/-- Reads the table whose opening brace has been read. -/
def readInlineTable (readValue : Reader Value) : Reader Value := fun cs =>
  match skipBlanks cs with
  | '\x7d' :: rest => some (.table [], rest)
  | rest => do
      let (entries, rest) ← readMembers readValue [] rest.length rest
      some (.table (Entry.toValues entries), rest)

def readAtom : Reader Value
  | '"' :: rest => (readString ('"' :: rest)).map fun (s, rest) => (.string s, rest)
  | '\'' :: rest => (readString ('\'' :: rest)).map fun (s, rest) => (.string s, rest)
  | cs => readWord cs

/-- Reads a value that nests to a depth of at most `room`. -/
def readValue : Nat → Reader Value
  | 0 => readAtom
  | room + 1 => fun cs =>
      match cs with
      | '[' :: rest =>
          (readItems (readValue room) rest.length rest).map fun (vs, rest) => (.array vs, rest)
      | '\x7b' :: rest => readInlineTable (readValue room) rest
      | _ => readAtom cs

structure Draft where
  entries : Entry.Entries := []
  /-- The name in the last header. -/
  header : List String := []

namespace Draft

def readHeader (cs : List Char) : Option (List String × List Char) := do
  let (name, rest) ← readName nestingLimit cs
  match rest with
  | ']' :: rest => some (name, rest)
  | _ => none

/-- Begins what a header names. -/
def start (d : Draft) (begin : String → Entry.Entries → Option Entry.Entries) (name : List String) :
    Option Draft := do
  some ⟨← Entry.reach begin name d.entries, name⟩

def put (d : Draft) (name : List String) (v : Value) : Option Draft := do
  some { d with entries := ← Entry.inTable (Entry.assign v name) d.header d.entries }

/-- Reads a statement, which begins with its first character. -/
def statement (d : Draft) : List Char → Option (Draft × List Char)
  | '[' :: '[' :: rest => do
      let (name, rest) ← readHeader rest
      match rest with
      | ']' :: rest => do some (← d.start Entry.beginElement name, rest)
      | _ => none
  | '[' :: rest => do
      let (name, rest) ← readHeader rest
      some (← d.start Entry.beginTable name, rest)
  | cs => do
      let ((name, v), rest) ← readPair (readValue nestingLimit) cs
      some (← d.put name v, rest)

/-- Reads statements, at most `count` of them. Lines may be blank or hold a comment only. -/
def statements : Nat → Draft → List Char → Option Draft
  | 0, d, cs => if cs.isEmpty then some d else none
  | count + 1, d, cs =>
      if cs.isEmpty then some d
      else
        match endStatement cs with
        | some rest => statements count d rest
        | none => do
            let (d, rest) ← d.statement (skipBlanks cs)
            statements count d (← endStatement rest)

end Draft

/-- The text without the mark that may stand before it. -/
def unmarked : List Char → List Char
  | '\ufeff' :: rest => rest
  | cs => cs

def ofText (s : String) : Option (List (String × Value)) := do
  let cs := unmarked s.toList
  let d ← Draft.statements cs.length {} cs
  match ← (Value.table (Entry.toValues d.entries)).settle with
  | .table entries => some entries
  | _ => none

end GrammarShapes.Toml
