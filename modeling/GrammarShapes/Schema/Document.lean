import GrammarShapes.Schema.Generation
import GrammarShapes.Shape.Document

set_option autoImplicit false

/-! # Schemas as documents

A schema is written as an object that gives each rule the list of its shapes, compactly or indented.
-/

namespace GrammarShapes

namespace Schema

def toJson (s : Schema) : Json :=
  .object (s.entries.map fun e => (e.1, .array (e.2.map Shape.toJson)))

/-- The schema as text. -/
def toText (s : Schema) (pretty : Bool) : String :=
  s.toJson.toText (if pretty then .indented else .compact)

/-- Reads a schema. A name that is given twice keeps its first place and its last shapes. -/
def read : Json.Draft → Except Json.Error Schema :=
  Json.Draft.asMap
    (fun s name d => return s.insert name (← Json.Draft.asList Shape.read d)) .empty

/-- The schema that a whole text gives. -/
def ofText (t : Json.Text) : Except Json.Error Schema :=
  Json.readText read t

end Schema

end GrammarShapes
