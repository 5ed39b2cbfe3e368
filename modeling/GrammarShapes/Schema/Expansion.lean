import GrammarShapes.Collection.FirstSeen
import GrammarShapes.Grammar.Basic
import GrammarShapes.Log.Event
import GrammarShapes.Schema.Options
import GrammarShapes.Shape.Basic

set_option autoImplicit false

/-! # Expansion

Expansion finds the shapes that a rule node can produce, hidden rules inlined. The shapes of a hidden rule
are kept while a query lasts, so that no rule is inlined twice. While a rule is being inlined its entry is
empty: a reference to it from inside contributes nothing, because the outer expansion collects what it
would give. An alias or a field is single-valued and keeps only the first shape.

Expansion goes at most `maxDepth` levels deep, where each node and each inlined rule is a level.
-/

namespace GrammarShapes

/-- The deepest nesting of rule nodes, inlined rules included, that expansion accepts. -/
def maxDepth : Nat := 512

/-- What an expansion knows and has reported. -/
structure Expander where
  /-- The shapes of the hidden rules met so far, the latest entry for a name first. -/
  memo : List (String × List Shape) := []
  /-- How many levels are open. -/
  depth : Nat := 0
  /-- The greatest number of levels that were open at once. -/
  deepest : Nat := 0
  /-- The records, latest first. -/
  reported : List Event := []

namespace Expander

def enter (e : Expander) : Expander :=
  { e with depth := e.depth + 1, deepest := max e.deepest (e.depth + 1) }

def leave (e : Expander) : Expander :=
  { e with depth := e.depth - 1 }

def remember (e : Expander) (name : String) (shapes : List Shape) : Expander :=
  { e with memo := (name, shapes) :: e.memo }

def report (e : Expander) (event : Event) : Expander :=
  { e with reported := event :: e.reported }

/-- The records in the order in which they were made. -/
def events (e : Expander) : List Event :=
  e.reported.reverse

end Expander

/-- A step of expansion gives shapes or an error, and in either case what is known afterwards. -/
abbrev Expansion :=
  Expander → Except SchemaError (List Shape) × Expander

namespace Expansion

/-- The shapes of all the nodes, one node after the other. -/
def concat (expand : Rule → Expansion) : List Rule → Expansion
  | [], e => (.ok [], e)
  | r :: rest, e =>
      match expand r e with
      | (.error err, e) => (.error err, e)
      | (.ok shapes, e) =>
          match concat expand rest e with
          | (.error err, e) => (.error err, e)
          | (.ok more, e) => (.ok (shapes ++ more), e)

/-- The first shape only. -/
def first (x : Expansion) : Expansion := fun e =>
  match x e with
  | (.error err, e) => (.error err, e)
  | (.ok shapes, e) => (.ok (shapes.take 1), e)

/-- The shapes of the hidden rule `name` with the given body, which are kept. -/
def inline (expand : Rule → Expansion) (name : String) (body : Rule) : Expansion := fun e =>
  match expand body ((e.remember name []).report (.ruleInlined name)) with
  | (.error err, e) => (.error err, e)
  | (.ok shapes, e) => (.ok (firstSeen shapes), e.remember name (firstSeen shapes))

end Expansion

variable (g : Grammar) (o : Options)

/-- The shapes of a symbol. A hidden external token has none. -/
def expandSymbol (expand : Rule → Expansion) (name : String) : Expansion := fun e =>
  if !g.resolves name then (.error (.unknownRule name), e)
  else if !o.isHidden name then (.ok [.symbol name], e)
  else
    match e.memo.lookup name with
    | some shapes => (.ok shapes, if shapes.isEmpty then e.report (.cycleCut name) else e)
    | none =>
        match g.rules.get? name with
        | none => (.ok [], e)
        | some body => Expansion.inline expand name body e

/-- The shapes of a node, given how its sub-rules are expanded. -/
def expandNode (expand : Rule → Expansion) : Rule → Expansion
  | .alias content _ _ => (expand content).first
  | .field _ content => (expand content).first
  | .sequence members => Expansion.concat expand members
  | .choice members => Expansion.concat expand members
  | .zeroOrMore content => expand content
  | .oneOrMore content => expand content
  | .ranked _ content => expand content
  | .rankedLeft _ content => expand content
  | .literal text => fun e => (.ok [.literal text], e)
  | .pattern _ _ => fun e => (.ok [.pattern], e)
  | .symbol name => expandSymbol g o expand name
  | .blank => fun e => (.ok [], e)

/-- The shapes of a node when at most `room` more levels may be opened. -/
def expandWithin : Nat → Rule → Expansion
  | 0, r, e => (.error (.nestedTooDeep maxDepth r.tag), e)
  | room + 1, r, e =>
      let (result, e) := expandNode g o (expandWithin room) r e.enter
      (result, e.leave)

/-- All shapes that a node can produce, in the order in which they are met, possibly repeated. -/
def expand (r : Rule) : Expansion := fun e =>
  expandWithin g o (maxDepth - e.depth) r e

/-- Expands a node with nothing known before. -/
def expandFresh (r : Rule) : Except SchemaError (List Shape) × Expander :=
  expand g o r {}

end GrammarShapes
