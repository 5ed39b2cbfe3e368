import GrammarShapes.Json.Reading
import GrammarShapes.Json.Writing
import GrammarShapes.Source.Range

set_option autoImplicit false

/-! # Ranges as documents

A range is an object with its two positions and a position an object with its three numbers. Both may also
be given as an array of their parts. A number lies below `2 ^ 64`.
-/

namespace GrammarShapes

open Json (Error Draft)

namespace Position

structure Parts where
  index : Option Nat := none
  line : Option Nat := none
  column : Option Nat := none

def readMember (ps : Parts) (key : String) (d : Draft) : Except Error Parts :=
  if key = "index" then return { ps with index := ← Json.once key ps.index d.asSize }
  else if key = "line" then return { ps with line := ← Json.once key ps.line d.asSize }
  else if key = "column" then return { ps with column := ← Json.once key ps.column d.asSize }
  else do
    d.pass
    return ps

def read : Draft → Except Error Position
  | .object members ending => do
      let ps ← Draft.foldMembers readMember {} members
      Json.checkEnd ending.asked
      return ⟨← Json.required "index" ps.index, ← Json.required "line" ps.line,
        ← Json.required "column" ps.column⟩
  | .array items ending => do
      let expected := "struct SourcePosition with 3 elements"
      let (index, q) ← Json.ItemQueue.part Draft.asSize 0 expected ⟨items, ending⟩
      let (line, q) ← q.part Draft.asSize 1 expected
      let (column, q) ← q.part Draft.asSize 2 expected
      q.close .inText 3
      return ⟨index, line, column⟩
  | d => d.refuse "struct SourcePosition"

def toJson (p : Position) : Json :=
  .object [("index", .number (.integer p.index)), ("line", .number (.integer p.line)),
    ("column", .number (.integer p.column))]

end Position

namespace Range

structure Parts where
  start : Option Position := none
  stop : Option Position := none

def readMember (ps : Parts) (key : String) (d : Draft) : Except Error Parts :=
  if key = "from" then return { ps with start := ← Json.once key ps.start (Position.read d) }
  else if key = "to" then return { ps with stop := ← Json.once key ps.stop (Position.read d) }
  else do
    d.pass
    return ps

def read : Draft → Except Error Range
  | .object members ending => do
      let ps ← Draft.foldMembers readMember {} members
      Json.checkEnd ending.asked
      return ⟨← Json.required "from" ps.start, ← Json.required "to" ps.stop⟩
  | .array items ending => do
      let expected := "struct SourceRange with 2 elements"
      let (start, q) ← Json.ItemQueue.part Position.read 0 expected ⟨items, ending⟩
      let (stop, q) ← q.part Position.read 1 expected
      q.close .inText 2
      return ⟨start, stop⟩
  | d => d.refuse "struct SourceRange"

def ofText (t : Json.Text) : Except Error Range :=
  Json.readText read t

def toJson (r : Range) : Json :=
  .object [("from", r.start.toJson), ("to", r.stop.toJson)]

end Range

end GrammarShapes
