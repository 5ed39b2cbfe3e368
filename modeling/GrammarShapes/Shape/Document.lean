import GrammarShapes.Json.Reading
import GrammarShapes.Json.Writing
import GrammarShapes.Shape.Basic

set_option autoImplicit false

/-! # Shapes as documents

A shape is written as a tagged value: an object with the tag first and then its text, if it has one.
-/

namespace GrammarShapes

open Json (Error Draft)

inductive ShapeTag where
  | symbol
  | literal
  | pattern
deriving DecidableEq

namespace Shape

def tagging : Json.Tagging ShapeTag where
  field := "kind"
  expected := "internally tagged enum Shape"
  known := [("symbol", .symbol), ("literal", .literal), ("pattern", .pattern)]

def stringOf : Json → Except Error String
  | .string s => .ok s
  | v => Json.wrongType (.ofJson v) "a string"

/-- The string of the member with the given key. Other members are passed over. -/
def textMember (key : String) (found : Option String) : List (String × Json) → Except Error String
  | [] =>
      match found with
      | some s => .ok s
      | none => .error (.mismatch (.missingField key))
  | (k, v) :: rest =>
      if k = key then
        if found.isSome then .error (.mismatch (.repeatedField key))
        else do
          let s ← stringOf v
          textMember key (some s) rest
      else textMember key found rest

/-- The string that is the only item of a list. -/
def textItem (title : String) : List Json → Except Error String
  | [] =>
      .error (.mismatch (.wrongLength 0 ("struct variant Shape::" ++ title ++ " with 1 element")))
  | v :: rest => do
      let s ← stringOf v
      match rest with
      | [] => return s
      | _ :: _ => .error (.mismatch (.wrongLength (rest.length + 1) "1 element in sequence"))

def ofContent : ShapeTag → Json.Content → Except Error Shape
  | .symbol, .members ms => return .symbol (← textMember "name" none ms)
  | .symbol, .items vs => return .symbol (← textItem "Symbol" vs)
  | .literal, .members ms => return .literal (← textMember "value" none ms)
  | .literal, .items vs => return .literal (← textItem "Literal" vs)
  | .pattern, .members _ => return .pattern
  | .pattern, .items [] => return .pattern
  | .pattern, .items vs =>
      .error (.mismatch (.wrongLength vs.length "0 elements in sequence"))

def read (d : Draft) : Except Error Shape := do
  let (tag, content) ← tagging.read d
  ofContent tag content

def ofText (t : Json.Text) : Except Error Shape :=
  Json.readText read t

def toJson : Shape → Json
  | .symbol name => .object [("kind", .string "symbol"), ("name", .string name)]
  | .literal value => .object [("kind", .string "literal"), ("value", .string value)]
  | .pattern => .object [("kind", .string "pattern")]

end Shape

end GrammarShapes
