import GrammarShapes.Settings.Key
import GrammarShapes.Settings.Value

set_option autoImplicit false

/-! # Why settings cannot be had -/

namespace GrammarShapes.Settings

inductive Failure where
  /-- The text of an override's key is not a key. -/
  | badKey (fault : KeyFault)
  | fileNotFound (name : String)
  /-- A text is not a document; a file has a name. -/
  | unreadable (name : Option String)
  /-- A value is not understood as a truth value. -/
  | notBoolean (found : String) (key : String) (file : Option String)
  | wrongType (found expected : String)
  | wrongValue (found expected : String)
  | wrongLength (length : Nat) (expected : String)
  | missingField (name : String)
deriving DecidableEq

/-- The text of a failure; what is wrong with a text that is no document is not told. -/
def Failure.message : Failure → Option String
  | .badKey fault => some fault.message
  | .fileNotFound name => some ("configuration file \"" ++ name ++ "\" not found")
  | .unreadable _ => none
  | .notBoolean found key file =>
      some ("invalid type: " ++ found ++ ", expected a boolean for key `" ++ key ++ "`" ++
        match file with
        | some file => " in " ++ file
        | none => "")
  | .wrongType found expected => some ("invalid type: " ++ found ++ ", expected " ++ expected)
  | .wrongValue found expected => some ("invalid value: " ++ found ++ ", expected " ++ expected)
  | .wrongLength n expected => some ("invalid length " ++ toString n ++ ", expected " ++ expected)
  | .missingField name => some ("missing field `" ++ name ++ "`")

end GrammarShapes.Settings
