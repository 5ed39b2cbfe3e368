import GrammarShapes.Text.Digits

set_option autoImplicit false

/-! # Keys

A key leads from the table of all settings to one of them: a name, then for each further step a point and a
name, or an index between brackets. Names are compared without regard to case.
-/

namespace GrammarShapes.Settings

inductive Step where
  | name (s : String)
  /-- An index; a negative one counts from the end. -/
  | index (i : Int)
deriving DecidableEq

abbrev Key :=
  List Step

inductive KeyFault where
  /-- It does not begin with a name. -/
  | noName
  /-- A step is not continued as it should be. -/
  | badStep
  | noIndex
  | indexTooGreat
deriving DecidableEq

def KeyFault.message : KeyFault → String
  | .noName => "IsA"
  | .badStep => "Char"
  | .noIndex => "Digit"
  | .indexTooGreat => "Map on Result"

namespace Key

def isNamePart (c : Char) : Bool :=
  c.isAlphanum || c = '_' || c = '-' || c = ' '

def isBlank (c : Char) : Bool :=
  c = ' ' || c = '\t'

/-- The name in the spelling in which names are compared. -/
def fold (name : String) : String :=
  String.ofList (name.toList.map Char.toLower)

/-- The name at the front of a text, and what follows it. -/
def takeName (cs : List Char) : Option (Step × List Char) :=
  let name := cs.takeWhile isNamePart
  if name.isEmpty then none
  else some (.name (fold (String.ofList name)), cs.dropWhile isNamePart)

/-- An index of sixty-four bits with a sign before its digits, and what follows it. -/
def takeIndex (cs : List Char) : Except KeyFault (Step × List Char) :=
  let cs := cs.dropWhile isBlank
  let negative := cs.head? == some '-'
  let cs := if negative then cs.drop 1 else cs
  let ds := cs.takeWhile Char.isDigit
  let i : Int := if negative then -(Text.digitsValue 10 ds : Int) else Text.digitsValue 10 ds
  if ds.isEmpty then .error .noIndex
  else if i < -9223372036854775808 || 9223372036854775808 ≤ i then .error .indexTooGreat
  else .ok (.index i, (cs.dropWhile Char.isDigit).dropWhile isBlank)

/-- A step behind the first one, and what follows it. -/
def takeStep : List Char → Except KeyFault (Step × List Char)
  | '.' :: rest =>
      match takeName rest with
      | some found => .ok found
      | none => .error .badStep
  | '[' :: rest => do
      match ← takeIndex rest with
      | (step, ']' :: rest) => .ok (step, rest)
      | _ => .error .badStep
  | _ => .error .badStep

/-- The steps behind the first one, at most `count` of them. -/
def takeSteps : Nat → List Char → Except KeyFault Key
  | _, [] => .ok []
  | 0, _ => .error .badStep
  | count + 1, cs => do
      let (step, rest) ← takeStep cs
      return step :: (← takeSteps count rest)

def ofText (s : String) : Except KeyFault Key :=
  match takeName s.toList with
  | none => .error .noName
  | some (step, rest) => do
      return step :: (← takeSteps rest.length rest)

end Key

end GrammarShapes.Settings
