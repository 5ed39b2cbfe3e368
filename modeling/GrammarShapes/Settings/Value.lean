import GrammarShapes.Decimal.Nearest
import GrammarShapes.Decimal.Shortest
import GrammarShapes.Json.Basic
import GrammarShapes.Text.Quoted
import GrammarShapes.Toml.Value

set_option autoImplicit false

/-! # Values of settings

The values that documents and overrides give to settings. A value that a file gave knows the name of that
file; the built-in document has none.
-/

namespace GrammarShapes.Settings

inductive Scalar where
  | nil
  | boolean (b : Bool)
  | integer (n : Int)
  /-- A binary64 number, given by its bits. -/
  | float (bits : UInt64)
  | string (s : String)
deriving DecidableEq

inductive Value where
  | scalar (file : Option String) (s : Scalar)
  | array (file : Option String) (items : List Value)
  | table (file : Option String) (entries : List (String × Value))

namespace Value

def nil : Value :=
  .scalar none .nil

def file : Value → Option String
  | .scalar file _ => file
  | .array file _ => file
  | .table file _ => file

mutual

def ofToml (file : Option String) : Toml.Value → Value
  | .string s => .scalar file (.string s)
  | .integer n => .scalar file (.integer n)
  | .float bits => .scalar file (.float bits)
  | .boolean b => .scalar file (.boolean b)
  | .moment m => .scalar file (.string m.text)
  | .array items => .array file (ofTomlItems file items)
  | .table entries => .table file (ofTomlEntries file entries)

def ofTomlItems (file : Option String) : List Toml.Value → List Value
  | [] => []
  | v :: rest => ofToml file v :: ofTomlItems file rest

def ofTomlEntries (file : Option String) : List (String × Toml.Value) → List (String × Value)
  | [] => []
  | (name, v) :: rest => (name, ofToml file v) :: ofTomlEntries file rest

end

/-- An integer of sixty-four bits, or else the nearest float. -/
def Scalar.ofInt (n : Int) : Scalar :=
  if -9223372036854775808 ≤ n && n < 9223372036854775808 then .integer n
  else .float (Decimal.nearestBits (n < 0) n.natAbs 0)

mutual

def ofJson : Json → Value
  | .null => nil
  | .boolean b => .scalar none (.boolean b)
  | .number (.integer n) => .scalar none (Scalar.ofInt n)
  | .number (.binary64 bits) => .scalar none (.float bits)
  | .string s => .scalar none (.string s)
  | .array items => .array none (ofJsonItems items)
  | .object members => .table none (ofJsonMembers members)

def ofJsonItems : List Json → List Value
  | [] => []
  | v :: rest => ofJson v :: ofJsonItems rest

def ofJsonMembers : List (String × Json) → List (String × Value)
  | [] => []
  | (name, v) :: rest => (name, ofJson v) :: ofJsonMembers rest

end

/-- The kind of the value, with the value itself where it is short. -/
def description : Value → String
  | .scalar _ .nil => "unit value"
  | .scalar _ (.boolean b) => "boolean `" ++ (if b then "true" else "false") ++ "`"
  | .scalar _ (.integer n) => "integer `" ++ toString n ++ "`"
  | .scalar _ (.float bits) =>
      "floating point `" ++ Decimal.Layout.positional.writeBits bits ++ "`"
  | .scalar _ (.string s) => "string " ++ Text.quoted s
  | .array _ _ => "sequence"
  | .table _ _ => "map"

end Value

end GrammarShapes.Settings
