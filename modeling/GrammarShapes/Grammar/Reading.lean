import GrammarShapes.Grammar.Basic
import GrammarShapes.Json.Reading

set_option autoImplicit false

/-! # Reading grammars

A rule is a tagged value: the tag decides which fields it has. Fields are taken in the order in which they
are written and everything else is passed over. The rules that stand directly in a grammar are read from
the text; the rules inside them have been read whole before they are interpreted.
-/

namespace GrammarShapes

open Json (Error Mismatch Found Draft)

/-- What a field of a rule holds. -/
inductive RuleField where
  | text
  | flags
  | name
  | content
  | named
  | members
  | precedence
deriving DecidableEq

namespace RuleField

def key : RuleField → String
  | .text => "value"
  | .flags => "flags"
  | .name => "name"
  | .content => "content"
  | .named => "named"
  | .members => "members"
  | .precedence => "value"

def isOptional : RuleField → Bool
  | .flags => true
  | .precedence => true
  | _ => false

end RuleField

namespace Tag

/-- The fields of a rule in the order in which they are declared. -/
def fields : Tag → List RuleField
  | .blank => []
  | .literal => [.text]
  | .pattern => [.text, .flags]
  | .symbol => [.name]
  | .alias => [.content, .named, .text]
  | .field => [.name, .content]
  | .sequence => [.members]
  | .choice => [.members]
  | .zeroOrMore => [.content]
  | .oneOrMore => [.content]
  | .ranked => [.precedence, .content]
  | .rankedLeft => [.precedence, .content]

/-- The name by which a message about the number of fields calls the kind of rule. -/
def title : Tag → String
  | .blank => "Blank"
  | .literal => "StringLiteral"
  | .pattern => "Pattern"
  | .symbol => "SymbolRef"
  | .alias => "Alias"
  | .field => "Field"
  | .sequence => "Seq"
  | .choice => "Choice"
  | .zeroOrMore => "Repeat"
  | .oneOrMore => "Repeat1"
  | .ranked => "Prec"
  | .rankedLeft => "PrecLeft"

def field? (t : Tag) (key : String) : Option RuleField :=
  t.fields.find? (·.key == key)

end Tag

def elementCount (n : Nat) : String :=
  toString n ++ if n = 1 then " element" else " elements"

/-- The fields of a rule as far as they have been read. -/
structure RuleFields where
  text : Option String := none
  flags : Option (Option String) := none
  name : Option String := none
  content : Option Rule := none
  named : Option Bool := none
  members : Option (List Rule) := none
  precedence : Option (Option Precedence) := none

namespace RuleFields

def has (fs : RuleFields) : RuleField → Bool
  | .text => fs.text.isSome
  | .flags => fs.flags.isSome
  | .name => fs.name.isSome
  | .content => fs.content.isSome
  | .named => fs.named.isSome
  | .members => fs.members.isSome
  | .precedence => fs.precedence.isSome

def stringOf : Json → Except Error String
  | .string s => .ok s
  | v => Json.wrongType (.ofJson v) "a string"

def booleanOf : Json → Except Error Bool
  | .boolean b => .ok b
  | v => Json.wrongType (.ofJson v) "a boolean"

def flagsOf : Json → Except Error (Option String)
  | .null => .ok none
  | v => some <$> stringOf v

def precedenceOf : Json → Except Error (Option Precedence)
  | .null => .ok none
  | .string s => .ok (some (.name s))
  | .number (.integer n) =>
      if -9223372036854775808 ≤ n ∧ n < 9223372036854775808 then .ok (some (.level (.ofInt n)))
      else .error (.mismatch (.noVariant "Precedence"))
  | _ => .error (.mismatch (.noVariant "Precedence"))

def putPlain (fs : RuleFields) (f : RuleField) (v : Json) : Except Error RuleFields :=
  match f with
  | .text => return { fs with text := some (← stringOf v) }
  | .flags => return { fs with flags := some (← flagsOf v) }
  | .name => return { fs with name := some (← stringOf v) }
  | .named => return { fs with named := some (← booleanOf v) }
  | .precedence => return { fs with precedence := some (← precedenceOf v) }
  | .content => .ok fs
  | .members => .ok fs

def required {α : Type} (f : RuleField) (v : Option α) : Except Error α :=
  Json.required f.key v

/-- The rule with these fields. The first field that is missing is reported. -/
def build (fs : RuleFields) : Tag → Except Error Rule
  | .blank => return .blank
  | .literal => return .literal (← required .text fs.text)
  | .pattern => return .pattern (← required .text fs.text) (fs.flags.getD none)
  | .symbol => return .symbol (← required .name fs.name)
  | .alias =>
      return .alias (← required .content fs.content) (← required .named fs.named)
        (← required .text fs.text)
  | .field => return .field (← required .name fs.name) (← required .content fs.content)
  | .sequence => return .sequence (← required .members fs.members)
  | .choice => return .choice (← required .members fs.members)
  | .zeroOrMore => return .zeroOrMore (← required .content fs.content)
  | .oneOrMore => return .oneOrMore (← required .content fs.content)
  | .ranked => return .ranked (fs.precedence.getD none) (← required .content fs.content)
  | .rankedLeft => return .rankedLeft (fs.precedence.getD none) (← required .content fs.content)

/-- The mismatch of a list of fields that ends before the field at position `i`, unless every field from
there on may be left out. -/
def checkLength (tag : Tag) (i : Nat) : List RuleField → Except Error Unit
  | [] => .ok ()
  | f :: rest =>
      if f.isOptional then checkLength tag (i + 1) rest
      else .error (.mismatch (.wrongLength i
        ("struct variant Rule::" ++ tag.title ++ " with " ++ elementCount tag.fields.length)))

end RuleFields

namespace Rule

def tagging : Json.Tagging Tag where
  field := "type"
  expected := "internally tagged enum Rule"
  known := Tag.all.map fun t => (t.text, t)

mutual

/-- The rule that a value inside another rule stands for. -/
def ofJson : Json → Except Error Rule
  | .object ms => do
      let tag ← Json.required tagging.field (← tagging.findTag none ms)
      let fs ← ofMembers tag {} ms
      fs.build tag
  | .array [] => .error (.mismatch (.missingField tagging.field))
  | .array (v :: vs) => do
      let tag ← tagging.ofJson v
      let fs ← ofItems tag 0 tag.fields {} vs
      fs.build tag
  | .null => Json.wrongType .null tagging.expected
  | .boolean b => Json.wrongType (.boolean b) tagging.expected
  | .number n => Json.wrongType (.number n) tagging.expected
  | .string s => Json.wrongType (.string s) tagging.expected

/-- Fills the fields of a rule from the members of an object. -/
def ofMembers (tag : Tag) (fs : RuleFields) : List (String × Json) → Except Error RuleFields
  | [] => .ok fs
  | (key, v) :: rest =>
      match tag.field? key with
      | none => ofMembers tag fs rest
      | some f =>
          if fs.has f then .error (.mismatch (.repeatedField key))
          else
            match f, v with
            | .content, v => do
                let r ← ofJson v
                ofMembers tag { fs with content := some r } rest
            | .members, .array vs => do
                let rs ← allOfJson vs
                ofMembers tag { fs with members := some rs } rest
            | .members, v => Json.wrongType (.ofJson v) "a sequence"
            | f, v => do
                let fs ← fs.putPlain f v
                ofMembers tag fs rest

/-- Fills the fields of a rule, of which `i` have been filled, from a list. -/
def ofItems (tag : Tag) (i : Nat) (fields : List RuleField) (fs : RuleFields) :
    List Json → Except Error RuleFields
  | [] => do
      RuleFields.checkLength tag i fields
      return fs
  | v :: vs =>
      match fields with
      | [] => .error (.mismatch (.wrongLength (i + vs.length + 1) (elementCount i ++ " in sequence")))
      | f :: fields =>
          match f, v with
          | .content, v => do
              let r ← ofJson v
              ofItems tag (i + 1) fields { fs with content := some r } vs
          | .members, .array ws => do
              let rs ← allOfJson ws
              ofItems tag (i + 1) fields { fs with members := some rs } vs
          | .members, v => Json.wrongType (.ofJson v) "a sequence"
          | f, v => do
              let fs ← fs.putPlain f v
              ofItems tag (i + 1) fields fs vs

def allOfJson : List Json → Except Error (List Rule)
  | [] => .ok []
  | v :: vs => do
      let r ← ofJson v
      let rs ← allOfJson vs
      return r :: rs

end

def read (d : Draft) : Except Error Rule := do
  let (tag, content) ← tagging.read d
  let fs ← match content with
    | .members ms => ofMembers tag {} ms
    | .items vs => ofItems tag 0 tag.fields {} vs
  fs.build tag

end Rule

namespace Grammar

/-- The fields of a grammar as far as they have been read. -/
structure Fields where
  name : Option (Option String) := none
  rules : Option (Directory Rule) := none
  extras : Option (List Rule) := none
  externals : Option (List Rule) := none

def readName : Draft → Except Error (Option String) :=
  Draft.asOptional (Draft.asString "a string")

def readRules : Draft → Except Error (Directory Rule) :=
  Draft.asMap (fun rules name d => return rules.insert name (← Rule.read d)) .empty

def readRuleList : Draft → Except Error (List Rule) :=
  Draft.asList Rule.read

/-- Fills the field that a member of the document names; other members are passed over. -/
def readMember (fs : Fields) (key : String) (d : Draft) : Except Error Fields :=
  if key = "name" then return { fs with name := ← Json.once key fs.name (readName d) }
  else if key = "rules" then return { fs with rules := ← Json.once key fs.rules (readRules d) }
  else if key = "extras" then return { fs with extras := ← Json.once key fs.extras (readRuleList d) }
  else if key = "externals" then
    return { fs with externals := ← Json.once key fs.externals (readRuleList d) }
  else do
    d.pass
    return fs

def ofFields (fs : Fields) : Except Error Grammar := do
  return { name := fs.name.getD none, rules := ← Json.required "rules" fs.rules,
           extras := fs.extras.getD [], externals := fs.externals.getD [] }

/-- Reads a grammar that lists its fields. Only the rules may not be left out. -/
def readItems (surplus : Json.Surplus) (q : Json.ItemQueue) : Except Error Grammar := do
  let (d, q) ← q.next
  let name ← match d with
    | some d => readName d
    | none => pure none
  let (rules, q) ← q.part readRules 1 "struct Grammar with 4 elements"
  let (d, q) ← q.next
  let extras ← match d with
    | some d => readRuleList d
    | none => pure []
  let (d, q) ← q.next
  let externals ← match d with
    | some d => readRuleList d
    | none => pure []
  q.close surplus 4
  return { name, rules, extras, externals }

def read (surplus : Json.Surplus) : Draft → Except Error Grammar
  | .object members ending => do
      let fs ← Draft.foldMembers readMember {} members
      Json.checkEnd ending.asked
      ofFields fs
  | .array items ending => readItems surplus ⟨items, ending⟩
  | d => d.refuse "struct Grammar"

def ofText (t : Json.Text) : Except Error Grammar :=
  Json.readText (read .inText) t

def ofValue (v : Json) : Except Error Grammar :=
  read .inValue (.ofJson v)

end Grammar

end GrammarShapes
