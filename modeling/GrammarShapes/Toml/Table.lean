import GrammarShapes.Toml.Value

set_option autoImplicit false

/-! # Tables while they are being read

Tables are filled by headers and by dotted names, in any order, but no name is given twice: a table has at
most one header, dotted names add only to tables that dotted names began, and the elements of an array of
tables are added by headers alone. A header may come later than the headers of tables inside its own.
-/

namespace GrammarShapes.Toml

inductive Origin where
  /-- Its own header. -/
  | header
  /-- The header of a table inside it. -/
  | inner
  /-- A dotted name of something inside it. -/
  | dotted
deriving DecidableEq

inductive Entry where
  | value (v : Value)
  | table (o : Origin) (entries : List (String × Entry))
  /-- An array of tables, last one first. -/
  | tables (elements : List (List (String × Entry)))

namespace Entry

abbrev Entries := List (String × Entry)

/-- Changes what a name stands for, or adds the name, unless the change is refused. -/
def update (name : String) (change : Option Entry → Option Entry) : Entries → Option Entries
  | [] => (change none).map fun e => [(name, e)]
  | (other, e) :: rest =>
      if other = name then (change (some e)).map fun e => (other, e) :: rest
      else (update name change rest).map ((other, e) :: ·)

/-- Changes the table that an entry is, or the last one of an array of tables. -/
def within (change : Entries → Option Entries) : Option Entry → Option Entry
  | some (.table o entries) => (change entries).map (.table o)
  | some (.tables (last :: earlier)) => (change last).map fun last => .tables (last :: earlier)
  | _ => none

/-- Gives a name a value, if it stands for nothing yet. -/
def define (v : Value) : Option Entry → Option Entry
  | none => some (.value v)
  | some _ => none

/-- Changes what the first part of a dotted name stands for. A value goes directly into a table only if
dotted names began that table. -/
def deepen (direct : Bool) (change : Entries → Option Entries) : Option Entry → Option Entry
  | none => (change []).map (.table .dotted)
  | some (.table .dotted entries) => (change entries).map (.table .dotted)
  | some (.table .header _) => none
  | e => if direct then none else within change e

def assign (v : Value) : List String → Entries → Option Entries
  | [] => fun _ => none
  | [name] => update name (define v)
  | name :: rest => update name (deepen (rest.length = 1) (assign v rest))

/-- The table that gets its header, made of what its name stands for. -/
def headed : Option Entry → Option Entry
  | none => some (.table .header [])
  | some (.table .inner entries) => some (.table .header entries)
  | some _ => none

/-- Gives a table its header. The table comes last among the entries, also if its name was there. -/
def beginTable (name : String) (entries : Entries) : Option Entries :=
  (headed (entries.lookup name)).map fun e => entries.filter (·.1 != name) ++ [(name, e)]

/-- The array of tables that gets an element, made of what its name stands for. -/
def extended : Option Entry → Option Entry
  | none => some (.tables [[]])
  | some (.tables elements) => some (.tables ([] :: elements))
  | some _ => none

def beginElement (name : String) (entries : Entries) : Option Entries :=
  update name extended entries

/-- Begins what a header names; the tables on the way to it are begun if need be. -/
def reach (begin : String → Entries → Option Entries) : List String → Entries → Option Entries
  | [] => fun _ => none
  | [name] => begin name
  | name :: rest => update name fun e => within (reach begin rest) (e.getD (.table .inner []))

def inTable (change : Entries → Option Entries) : List String → Entries → Option Entries
  | [] => change
  | name :: rest => update name (within (inTable change rest))

mutual

def toValue : Entry → Value
  | .value v => v
  | .table _ entries => .table (toValues entries)
  | .tables elements => .array (toTables [] elements)

def toValues : List (String × Entry) → List (String × Value)
  | [] => []
  | (name, e) :: rest => (name, toValue e) :: toValues rest

/-- The tables of an array whose last one comes first, before those in `later`. -/
def toTables (later : List Value) : List (List (String × Entry)) → List Value
  | [] => later
  | entries :: rest => toTables (.table (toValues entries) :: later) rest

end

end Entry

end GrammarShapes.Toml
