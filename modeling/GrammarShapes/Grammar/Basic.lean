import GrammarShapes.Collection.Directory
import GrammarShapes.Grammar.Rule

set_option autoImplicit false

/-! # Grammars

A grammar maps rule names to rules, in the order in which the names first came, and lists the rules that
may appear between any two nodes (the extras) and the tokens that a scanner outside the grammar produces
(the externals). A symbol resolves if it names a rule or an external token.
-/

namespace GrammarShapes

structure Grammar where
  name : Option String := none
  rules : Directory Rule := .empty
  extras : List Rule := []
  externals : List Rule := []
deriving DecidableEq

inductive SchemaError where
  | unknownRule (name : String)
  /-- The document does not have the expected structure. -/
  | malformed (reason : String)
  /-- Expansion would go deeper than `limit` levels at a node with this tag. -/
  | nestedTooDeep (limit : Nat) (tag : Tag)
deriving DecidableEq

def SchemaError.message : SchemaError → String
  | .unknownRule name => "unknown rule `" ++ name ++ "`"
  | .malformed reason => "malformed grammar: " ++ reason
  | .nestedTooDeep limit tag =>
      "malformed grammar: rule nesting deeper than " ++ toString limit ++
        " levels while expanding " ++ tag.text

namespace Grammar

/-- Gives the grammar a rule. A name that is there already keeps its place. -/
def withRule (g : Grammar) (name : String) (rule : Rule) : Grammar :=
  { g with rules := g.rules.insert name rule }

def withName (g : Grammar) (name : String) : Grammar :=
  { g with name := some name }

def withExtra (g : Grammar) (rule : Rule) : Grammar :=
  { g with extras := g.extras ++ [rule] }

def withExternal (g : Grammar) (rule : Rule) : Grammar :=
  { g with externals := g.externals ++ [rule] }

def rule (g : Grammar) (name : String) : Except SchemaError Rule :=
  match g.rules.get? name with
  | some r => .ok r
  | none => .error (.unknownRule name)

/-- Whether the name is declared as an external token. -/
def isExternal (g : Grammar) (name : String) : Bool :=
  g.externals.any fun r => r.symbol? == some name

/-- Whether a symbol of this name refers to something. -/
def resolves (g : Grammar) (name : String) : Bool :=
  g.rules.contains name || g.isExternal name

def roots (g : Grammar) : List Rule :=
  g.rules.values ++ g.extras

/-- The first name that does not resolve, going through the nodes in order. -/
def firstDangling (g : Grammar) : List Rule → Option String
  | [] => none
  | r :: rest => (r.references.find? fun name => !g.resolves name).or (g.firstDangling rest)

def checkReferences (g : Grammar) : Except SchemaError Unit :=
  match g.firstDangling g.roots with
  | some name => .error (.unknownRule name)
  | none => .ok ()

theorem firstDangling_eq_find? (g : Grammar) (rs : List Rule) :
    g.firstDangling rs = (rs.flatMap Rule.references).find? fun name => !g.resolves name := by
  induction rs with
  | nil => rfl
  | cons r rest ih => simp [firstDangling, ih, List.find?_append]

end Grammar

end GrammarShapes
