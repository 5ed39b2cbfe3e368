import GrammarShapes.Toml.Moment

set_option autoImplicit false

/-! # TOML values

A table that begins with a reserved name is another spelling of a moment: the text of the moment stands
under that name, and what follows in the table does not count.
-/

namespace GrammarShapes.Toml

inductive Value where
  | string (s : String)
  | integer (n : Int)
  /-- A binary64 number, given by its bits. -/
  | float (bits : UInt64)
  | boolean (b : Bool)
  | moment (m : Moment)
  | array (items : List Value)
  /-- A table; its names are distinct. -/
  | table (entries : List (String × Value))

namespace Value

/-- The reserved name of a table that spells a moment. -/
def momentName : String := "$__toml_private_datetime"

/-- What stands under the reserved name, if the entries begin with it. -/
def reserved? : List (String × Value) → Option Value
  | [] => none
  | (name, v) :: _ => if name = momentName then some v else none

/-- The moment whose text a value is. -/
def asMoment : Value → Option Value
  | .string s => (Moment.ofWord s.toList).map .moment
  | _ => none

mutual

/-- The value with a moment for each table that spells one; none if such a table spells no moment. -/
def settle : Value → Option Value
  | .array items => (settleItems items).map .array
  | .table entries =>
      match reserved? entries with
      | some v => v.asMoment
      | none => (settleEntries entries).map .table
  | .string s => some (.string s)
  | .integer n => some (.integer n)
  | .float bits => some (.float bits)
  | .boolean b => some (.boolean b)
  | .moment m => some (.moment m)

def settleItems : List Value → Option (List Value)
  | [] => some []
  | v :: rest => do
      let v ← settle v
      some (v :: (← settleItems rest))

def settleEntries : List (String × Value) → Option (List (String × Value))
  | [] => some []
  | (name, v) :: rest => do
      let v ← settle v
      some ((name, v) :: (← settleEntries rest))

end

end Value

end GrammarShapes.Toml
