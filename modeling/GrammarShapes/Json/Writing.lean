import GrammarShapes.Json.Basic

set_option autoImplicit false

/-! # Writing values

A value is written compactly, without blanks, or indented, with one item or member a line. In a string only
the quote, the backslash and the control characters below the space are escaped.
-/

namespace GrammarShapes.Json

/-- The characters that stand for one character of a string. -/
def escapedChar (c : Char) : List Char :=
  if c = '"' then ['\\', '"']
  else if c = '\\' then ['\\', '\\']
  else if c = '\x08' then ['\\', 'b']
  else if c = '\x0c' then ['\\', 'f']
  else if c = '\n' then ['\\', 'n']
  else if c = '\r' then ['\\', 'r']
  else if c = '\t' then ['\\', 't']
  else if c.toNat < 0x20 then
    ['\\', 'u', '0', '0', Nat.digitChar (c.toNat / 16), Nat.digitChar (c.toNat % 16)]
  else [c]

/-- How the parts of a value are set apart: not at all, or with one item or member a line. -/
inductive Spacing where
  | compact
  | indented
deriving DecidableEq

/-- What stands between parts where `level` arrays and objects are open, before `rest`. -/
def Spacing.lineBreak (level : Nat) (rest : List Char) : Spacing → List Char
  | .compact => rest
  | .indented => '\n' :: (List.replicate (2 * level) ' ' ++ rest)

/-- What stands between a name and its value, before `rest`. -/
def Spacing.colon (rest : List Char) : Spacing → List Char
  | .compact => ':' :: rest
  | .indented => ':' :: ' ' :: rest

def writeString (s : String) (rest : List Char) : List Char :=
  '"' :: (s.toList.flatMap escapedChar ++ '"' :: rest)

def numeral : Number → List Char
  | .integer n => if n < 0 then '-' :: Nat.toDigits 10 n.natAbs else Nat.toDigits 10 n.natAbs
  | .binary64 bits => (Decimal.Layout.mixed.writeBits bits).toList

mutual

/-- The text of a value inside `level` arrays and objects, before `rest`. -/
def write (spacing : Spacing) (level : Nat) (rest : List Char) : Json → List Char
  | .null => 'n' :: 'u' :: 'l' :: 'l' :: rest
  | .boolean true => 't' :: 'r' :: 'u' :: 'e' :: rest
  | .boolean false => 'f' :: 'a' :: 'l' :: 's' :: 'e' :: rest
  | .number n => numeral n ++ rest
  | .string s => writeString s rest
  | .array [] => '[' :: ']' :: rest
  | .array (v :: items) =>
      '[' :: spacing.lineBreak (level + 1)
        (write spacing (level + 1) (writeItems spacing level rest items) v)
  | .object [] => '\x7b' :: '\x7d' :: rest
  | .object ((name, v) :: members) =>
      '\x7b' :: spacing.lineBreak (level + 1) (writeString name
        (spacing.colon (write spacing (level + 1) (writeMembers spacing level rest members) v)))

/-- What follows an item: the other items and the closing bracket. -/
def writeItems (spacing : Spacing) (level : Nat) (rest : List Char) : List Json → List Char
  | [] => spacing.lineBreak level (']' :: rest)
  | v :: items =>
      ',' :: spacing.lineBreak (level + 1)
        (write spacing (level + 1) (writeItems spacing level rest items) v)

/-- What follows a member: the other members and the closing brace. -/
def writeMembers (spacing : Spacing) (level : Nat) (rest : List Char) :
    List (String × Json) → List Char
  | [] => spacing.lineBreak level ('\x7d' :: rest)
  | (name, v) :: members =>
      ',' :: spacing.lineBreak (level + 1) (writeString name
        (spacing.colon (write spacing (level + 1) (writeMembers spacing level rest members) v)))

end

/-- The text of a value. -/
def toText (v : Json) (spacing : Spacing) : String :=
  String.ofList (v.write spacing 0 [])

end GrammarShapes.Json
