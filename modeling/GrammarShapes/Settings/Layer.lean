import GrammarShapes.Settings.Key
import GrammarShapes.Settings.Value

set_option autoImplicit false

/-! # Layers of settings

A layer is put upon what lies below it value by value. A table adds to the table of the same name and
leaves alone what it does not mention; any other value takes the place of what was there. What is in the
way of a step is replaced by a table or an array.
-/

namespace GrammarShapes.Settings

namespace Value

def entries : Value → List (String × Value)
  | .table _ entries => entries
  | _ => []

def items : Value → List Value
  | .array _ items => items
  | _ => []

/-- The file of a table that remains a table. -/
def tableFile : Value → Option String
  | .table file _ => file
  | _ => none

/-- The file of an array that remains an array. -/
def arrayFile : Value → Option String
  | .array file _ => file
  | _ => none

/-- Changes the value of a name, or adds the name with what the change makes of nothing. -/
def updateEntry (name : String) (change : Option Value → Value) :
    List (String × Value) → List (String × Value)
  | [] => [(name, change none)]
  | (other, v) :: rest =>
      if other = name then (other, change (some v)) :: rest
      else (other, v) :: updateEntry name change rest

/-- Changes the value under a name of a table, which the value becomes if it is none. -/
def updateName (name : String) (change : Option Value → Value) (v : Value) : Value :=
  .table v.tableFile (updateEntry (Key.fold name) change v.entries)

/-- The place of an index among items that may have to be added: how many are added before the others,
and the place among them all. -/
def place (i : Int) (count : Nat) : Nat × Nat :=
  if 0 ≤ i then (0, i.toNat)
  else if i.natAbs ≤ count then (0, count - i.natAbs)
  else (i.natAbs - count, 0)

/-- Changes the value at an index of an array, which the value becomes if it is none. -/
def updateIndex (i : Int) (change : Option Value → Value) (v : Value) : Value :=
  let (added, position) := place i v.items.length
  let items := List.replicate added nil ++ v.items
  let items := items ++ List.replicate (position + 1 - items.length) nil
  .array v.arrayFile (items.set position (change items[position]?))

def updateStep : Step → (Option Value → Value) → Value → Value
  | .name name => updateName name
  | .index i => updateIndex i

mutual

/-- What becomes of the value of a name when another value is put upon it. -/
def merge : Value → Option Value → Value
  | .table _ entries, below => mergeEntries entries (below.getD (.table none []))
  | v, _ => v

/-- Puts the entries of a table upon a value, one after the other. -/
def mergeEntries : List (String × Value) → Value → Value
  | [], below => below
  | (name, v) :: rest, below => mergeEntries rest (updateName name (merge v) below)

end

/-- Puts a value upon a value at the end of a key. A table replaces the item of an array. -/
def put (v : Value) : Key → Value → Value
  | [] => fun _ => v
  | [.name name] => updateName name (merge v)
  | [.index i] => updateIndex i fun _ => v
  | step :: rest => updateStep step fun below => put v rest (below.getD nil)

end Value

end GrammarShapes.Settings
