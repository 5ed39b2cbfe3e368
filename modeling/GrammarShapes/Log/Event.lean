set_option autoImplicit false

/-! # Log records

What the library reports while it works, with the level of each record and its text.
-/

namespace GrammarShapes

inductive Event where
  | grammarLoaded (name : Option String) (rules extras : Nat)
  | schemaGenerated (collections rules : Nat)
  | shapesComputed (rule tag : String)
  | ruleInlined (name : String)
  | cycleCut (name : String)
  | walkStarted
  | walkFinished
  | walkCounted (visited : Nat)
deriving DecidableEq

inductive Level where
  | debug
  | trace
deriving DecidableEq

namespace Event

def level : Event → Level
  | .grammarLoaded _ _ _ => .debug
  | .schemaGenerated _ _ => .debug
  | .shapesComputed _ _ => .debug
  | .ruleInlined _ => .trace
  | .cycleCut _ => .trace
  | .walkStarted => .trace
  | .walkFinished => .trace
  | .walkCounted _ => .trace

def message : Event → String
  | .grammarLoaded name rules extras =>
      "loaded grammar " ++ name.getD "<unnamed>" ++ " with " ++ toString rules ++ " rules and " ++
        toString extras ++ " extras"
  | .schemaGenerated collections rules =>
      "generated schema for " ++ toString collections ++ " of " ++ toString rules ++ " rules"
  | .shapesComputed rule tag => "computing shapes of rule " ++ rule ++ " (" ++ tag ++ ")"
  | .ruleInlined name => "inlining hidden rule " ++ name
  | .cycleCut name => "hidden rule " ++ name ++ " already being expanded, cutting cycle"
  | .walkStarted => "walk started"
  | .walkFinished => "walk finished"
  | .walkCounted visited => "walk finished after " ++ toString visited ++ " nodes"

end Event

def Level.text : Level → String
  | .debug => "DEBUG"
  | .trace => "TRACE"

end GrammarShapes
