import GrammarShapes.Grammar.Basic
import GrammarShapes.Json.Writing

set_option autoImplicit false

/-! # Writing grammars

A rule is written as an object with its tag first and its fields in the order in which they are declared.
Fields that may be left out are left out when they are absent; the extras are always written.
-/

namespace GrammarShapes

def Precedence.toJson : Precedence → Json
  | .level n => .number (.integer n.toInt)
  | .name s => .string s

namespace Rule

def tagMember (t : Tag) : String × Json :=
  ("type", .string t.text)

mutual

def toJson : Rule → Json
  | .blank => .object [tagMember .blank]
  | .literal text => .object [tagMember .literal, ("value", .string text)]
  | .pattern regex flags =>
      .object (tagMember .pattern :: ("value", .string regex) ::
        flags.toList.map fun f => ("flags", .string f))
  | .symbol name => .object [tagMember .symbol, ("name", .string name)]
  | .alias content named name =>
      .object [tagMember .alias, ("content", toJson content), ("named", .boolean named),
        ("value", .string name)]
  | .field name content =>
      .object [tagMember .field, ("name", .string name), ("content", toJson content)]
  | .sequence members => .object [tagMember .sequence, ("members", .array (allToJson members))]
  | .choice members => .object [tagMember .choice, ("members", .array (allToJson members))]
  | .zeroOrMore content => .object [tagMember .zeroOrMore, ("content", toJson content)]
  | .oneOrMore content => .object [tagMember .oneOrMore, ("content", toJson content)]
  | .ranked precedence content =>
      .object (tagMember .ranked :: (precedence.toList.map fun p => ("value", p.toJson)) ++
        [("content", toJson content)])
  | .rankedLeft precedence content =>
      .object (tagMember .rankedLeft :: (precedence.toList.map fun p => ("value", p.toJson)) ++
        [("content", toJson content)])

def allToJson : List Rule → List Json
  | [] => []
  | r :: rest => toJson r :: allToJson rest

end

theorem allToJson_eq_map (rs : List Rule) : allToJson rs = rs.map toJson := by
  induction rs with
  | nil => rfl
  | cons r rest ih => simp [allToJson, ih]

end Rule

def Grammar.toJson (g : Grammar) : Json :=
  .object
    ((g.name.toList.map fun n => ("name", Json.string n)) ++
      [("rules", .object (g.rules.entries.map fun e => (e.1, e.2.toJson))),
        ("extras", .array (g.extras.map Rule.toJson))] ++
      if g.externals = [] then [] else [("externals", .array (g.externals.map Rule.toJson))])

def Grammar.toText (g : Grammar) : String :=
  g.toJson.toText .compact

end GrammarShapes
