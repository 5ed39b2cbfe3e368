import GrammarShapes.Collection.Search
import GrammarShapes.Source.Range

set_option autoImplicit false

/-! # Lines of a source text

Only a line feed ends a line. The line of a byte offset is sought among the starts of the lines; an offset
may lie inside a character or behind the end of the text.
-/

namespace GrammarShapes

/-- The offsets directly behind the line feeds of a text, when its first byte has the given offset. -/
def lineFeedEnds (offset : Nat) : List Char → List Nat
  | [] => []
  | c :: rest =>
      let next := offset + c.utf8Size
      if c = '\n' then next :: lineFeedEnds next rest else lineFeedEnds next rest

theorem lt_of_mem_lineFeedEnds {offset n : Nat} {cs : List Char} (h : n ∈ lineFeedEnds offset cs) :
    offset < n := by
  induction cs generalizing offset with
  | nil => cases h
  | cons c rest ih =>
    have hSize := c.utf8Size_pos
    rw [lineFeedEnds] at h
    split at h
    · rcases List.mem_cons.mp h with rfl | hRest
      · omega
      · exact Nat.lt_trans (by omega) (ih hRest)
    · exact Nat.lt_trans (by omega) (ih h)

theorem pairwise_lineFeedEnds (offset : Nat) (cs : List Char) :
    (lineFeedEnds offset cs).Pairwise (· < ·) := by
  induction cs generalizing offset with
  | nil => exact .nil
  | cons c rest ih =>
    rw [lineFeedEnds]
    split
    · exact .cons (fun _ => lt_of_mem_lineFeedEnds) (ih _)
    · exact ih _

structure Lines where
  /-- The starts of all lines, in order. -/
  starts : Array Nat
  starts_zero : starts[0]? = some 0
  ascending : starts.toList.Pairwise (· < ·)

namespace Lines

def ofString (s : String) : Lines where
  starts := (0 :: lineFeedEnds 0 s.toList).toArray
  starts_zero := rfl
  ascending := .cons (fun _ => lt_of_mem_lineFeedEnds) (pairwise_lineFeedEnds 0 s.toList)

def count (l : Lines) : Nat :=
  l.starts.size

def start? (l : Lines) (line : Nat) : Option Nat :=
  l.starts[line]?

/-- The line that starts at an offset, or else the one before the place where such a line would stand. -/
def lineAt (l : Lines) (offset : Nat) : Nat :=
  match seek l.starts offset with
  | .found line => line
  | .missing place => place - 1

def positionAt (l : Lines) (offset : Nat) : Position :=
  let line := l.lineAt offset
  ⟨offset, line, offset - (l.start? line).getD 0⟩

def range (l : Lines) (start stop : Nat) : Range :=
  ⟨l.positionAt start, l.positionAt stop⟩

end Lines

end GrammarShapes
