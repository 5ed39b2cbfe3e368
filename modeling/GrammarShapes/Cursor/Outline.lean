import GrammarShapes.Cursor.Walk

set_option autoImplicit false

/-! # Outlines

An outline has one line for the node that a cursor starts on and one for each node below it, in document
order, each line indented by two spaces for every level. A kind of more than `kindLimit` characters is cut.
On request a line begins with the number of the line where its node starts, counted from one, and ends
with the node's range.
-/

namespace GrammarShapes

/-- What the lines of an outline show beside the kinds. -/
structure Outline where
  lineNumbers : Bool := false
  ranges : Bool := false
deriving DecidableEq

namespace Outline

/-- How many characters of a kind are shown. -/
def kindLimit : Nat := 30

/-- Line numbers are machine words and start again from zero behind the greatest. -/
def lineNumberModulus : Nat := 18446744073709551616

def twoDigits (n : Nat) : String :=
  if n < 10 then "0" ++ toString n else toString n

/-- The first characters of a kind, and dots if there are more. -/
def cut (kind : String) : String :=
  if kind.length ≤ kindLimit then kind
  else String.ofList (kind.toList.take kindLimit) ++ "..."

def indentation (depth : Nat) : String :=
  String.ofList (List.replicate (2 * depth) ' ')

variable {σ ν : Type} [SyntaxNode ν]

def line (o : Outline) (node : ν) (depth : Nat) : String :=
  let number := ((SyntaxNode.range node).start.line + 1) % lineNumberModulus
  (if o.lineNumbers then twoDigits number ++ " " else "") ++ indentation depth ++
    cut (SyntaxNode.kind node) ++
    (if o.ranges then " [" ++ (SyntaxNode.range node).display ++ "]" else "") ++ "\n"

/-- The outline of the node that a cursor is on and of at most `bound` nodes below it, with the state in
which the cursor is left. -/
def text (o : Outline) (c : Cursor σ ν) (bound : Nat) (s : σ) : String × σ :=
  let (below, w) := Walk.take (Walk.next c) bound ⟨s, 0, false⟩
  (String.join (o.line (c.node s) 0 :: below.map fun entry => o.line entry.1 entry.2), w.cursor)

def lineNumbersName : String := "show-linum"

def rangesName : String := "show-ranges"

/-- Whether a parameter is given with a value other than `false`. -/
def flag (parameters : List (String × String)) (name : String) : Bool :=
  match parameters.lookup name with
  | none => false
  | some value => value != "false"

def ofParameters (parameters : List (String × String)) : Outline :=
  ⟨flag parameters lineNumbersName, flag parameters rangesName⟩

def flagText (b : Bool) : String :=
  if b then "true" else "false"

def toParameters (o : Outline) : List (String × String) :=
  [(lineNumbersName, flagText o.lineNumbers), (rangesName, flagText o.ranges)]

theorem ofParameters_toParameters (o : Outline) : ofParameters o.toParameters = o := by
  obtain ⟨lineNumbers, ranges⟩ := o
  cases lineNumbers <;> cases ranges <;> rfl

end Outline

end GrammarShapes
