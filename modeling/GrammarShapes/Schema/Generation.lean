import GrammarShapes.Log.Logged
import GrammarShapes.Schema.Expansion

set_option autoImplicit false

/-! # Schema generation

A schema gives for every collection rule of a grammar the shapes that can be met among the children of a
node of that rule: first the rule's own shapes, then those of the extras, none of them twice. Each query
starts with nothing known, so that results never leak from one rule into another.
-/

namespace GrammarShapes

/-- The shapes of the collection rules, in the order of the grammar. -/
abbrev Schema :=
  Directory (List Shape)

variable (g : Grammar) (o : Options)

/-- The shapes of a node, as an operation that leaves records. -/
def shapesOfNode (r : Rule) : Logged (List Shape) :=
  ⟨(expandFresh g o r).1, (expandFresh g o r).2.events⟩

/-- Adds the shapes of each node to those that are there. -/
def addShapesOf (seen : List Shape) : List Rule → Logged (List Shape)
  | [] => pure seen
  | r :: rest => do
      let shapes ← shapesOfNode g o r
      addShapesOf (addNew seen shapes) rest

/-- The shapes of the extras; there are none when extras are left out. -/
def extraShapes : Logged (List Shape) :=
  if o.includeExtras then addShapesOf g o [] g.extras else pure []

/-- The shapes of a rule, and for a collection rule those of the extras behind them. -/
def shapesWithExtras (name : String) (r : Rule) (extras : List Shape) : Logged (List Shape) := do
  Logged.record (.shapesComputed name r.tag.text)
  let shapes ← shapesOfNode g o r
  return if r.isCollection then addNew (firstSeen shapes) extras else firstSeen shapes

/-- The shapes that can be met below a node of the rule with the given name. -/
def shapesOf (name : String) : Logged (List Shape) :=
  match g.rule name with
  | .error e => .fail e
  | .ok r => do
      let extras ← if r.isCollection then extraShapes g o else pure []
      shapesWithExtras g o name r extras

/-- Adds the shapes of each rule to a schema; the first rule that fails ends it. -/
def addRules (extras : List Shape) (schema : Schema) : List (String × Rule) → Logged Schema
  | [] => pure schema
  | (name, r) :: rest => do
      let shapes ← shapesWithExtras g o name r extras
      addRules extras (schema.insert name shapes) rest

/-- The schema of a grammar. There is none if any collection rule or extra fails. -/
def generate : Logged Schema := do
  let extras ← extraShapes g o
  let schema ← addRules g o extras .empty (g.rules.filter Rule.isCollection)
  Logged.record (.schemaGenerated schema.size g.rules.size)
  return schema

end GrammarShapes
