import GrammarShapes.Grammar.Reading
import GrammarShapes.Log.Logged

set_option autoImplicit false

/-! # Loading grammars

A grammar is loaded from a text, from bytes, or from a value that is at hand. A load that succeeds leaves
one record in the log; one that fails leaves none.
-/

namespace GrammarShapes

namespace SchemaError

def ofJsonError (e : Json.Error) : SchemaError :=
  .malformed e.message

end SchemaError

namespace Grammar

def loadedEvent (g : Grammar) : Event :=
  .grammarLoaded g.name g.rules.size g.extras.length

def loading : Except Json.Error Grammar → Logged Grammar
  | .ok g => ⟨.ok g, [g.loadedEvent]⟩
  | .error e => ⟨.error (.ofJsonError e), []⟩

def load (source : String) : Logged Grammar :=
  loading (ofText (.ofString source))

def loadBytes (bytes : ByteArray) : Logged Grammar :=
  loading (ofText (.ofBytes bytes))

/-- Loads the grammar that the sorted form of a value stands for. -/
def loadValue (v : Json) : Logged Grammar :=
  loading (ofValue v.sorted)

/-- Loads the grammar that the value of a text stands for, once the text has been read as a value. -/
def loadValueText (source : String) : Logged Grammar :=
  match (Json.Document.ofText (.ofString source)).read with
  | .ok v => loadValue v
  | .error f => ⟨.error (.ofJsonError (.fault f)), []⟩

end Grammar

end GrammarShapes
