import GrammarShapes.Grammar.Basic

set_option autoImplicit false

/-! # A sample grammar

A small grammar of arithmetic programs: hidden rules that refer to each other in a circle, fields over
hidden rules, precedence levels, and a comment among the extras.
-/

namespace GrammarShapes

namespace Grammar.Sample

def identifier : Rule := .symbol "identifier"

def expression : Rule := .symbol "_expression"

def operator (one other : String) : Rule :=
  .field "operator" (.choice [.literal one, .literal other])

def statementBody : Rule :=
  .choice [.symbol "assignment", .sequence [expression, .literal ";"]]

def assignmentBody : Rule :=
  .sequence [.field "left" identifier, .literal "=", .field "right" expression, .literal ";"]

def expressionBody : Rule :=
  .choice [identifier, .symbol "number", .symbol "binary_expression", .symbol "parenthesized"]

def binaryBody : Rule :=
  .choice
    [.rankedLeft (some (.level 1))
      (.sequence [.field "left" expression, operator "+" "-", .field "right" expression]),
     .rankedLeft (some (.level 2)) (.sequence [expression, operator "*" "/", expression])]

def arithmetic : Grammar where
  name := some "arithmetic"
  rules := .ofEntries
    [("program", .zeroOrMore (.symbol "_statement")),
     ("_statement", statementBody),
     ("assignment", assignmentBody),
     ("_expression", expressionBody),
     ("binary_expression", binaryBody),
     ("parenthesized", .sequence [.literal "(", expression, .literal ")"]),
     ("identifier", .pattern "[a-z]+" none),
     ("number", .pattern "\\d+" none),
     ("comment", .pattern "#.*" none)]
  extras := [.pattern "\\s" none, .symbol "comment"]

def named? (name : String) : Option Grammar :=
  if name = "arithmetic" then some arithmetic else none

end Grammar.Sample

end GrammarShapes
