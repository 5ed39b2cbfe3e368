set_option autoImplicit false

/-! # Positions and ranges

A position is a byte index with its line and column, all counted from zero. Positions are ordered by index,
then line, then column. A range goes from one position up to another and holds the bytes between them,
the first included and the last not.
-/

namespace GrammarShapes

structure Position where
  index : Nat := 0
  line : Nat := 0
  column : Nat := 0
deriving DecidableEq

namespace Position

def le (a b : Position) : Prop :=
  a.index < b.index ∨ a.index = b.index ∧
    (a.line < b.line ∨ a.line = b.line ∧ a.column ≤ b.column)

instance : LE Position := ⟨le⟩

theorem le_iff {a b : Position} :
    a ≤ b ↔ a.index < b.index ∨ a.index = b.index ∧
      (a.line < b.line ∨ a.line = b.line ∧ a.column ≤ b.column) :=
  Iff.rfl

instance : DecidableLE Position := fun _ _ => decidable_of_iff' _ le_iff

instance : Min Position := ⟨fun a b => if a ≤ b then a else b⟩

instance : Max Position := ⟨fun a b => if a ≤ b then b else a⟩

theorem le_refl (a : Position) : a ≤ a := by
  simp [le_iff]

theorem le_trans {a b c : Position} (hab : a ≤ b) (hbc : b ≤ c) : a ≤ c := by
  rw [le_iff] at *
  omega

theorem le_total (a b : Position) : a ≤ b ∨ b ≤ a := by
  rw [le_iff, le_iff]
  omega

def display (p : Position) : String :=
  toString p.line ++ ":" ++ toString p.column

end Position

structure Range where
  start : Position := {}
  stop : Position := {}
deriving DecidableEq

namespace Range

/-- The number of bytes from start to stop; a range that ends before it starts has none. -/
def length (r : Range) : Nat :=
  r.stop.index - r.start.index

def isEmpty (r : Range) : Bool :=
  r.length == 0

/-- Whether the byte of a position is in the range. -/
def contains (r : Range) (p : Position) : Bool :=
  r.start.index ≤ p.index && p.index < r.stop.index

def overlaps (r s : Range) : Bool :=
  r.start.index < s.stop.index && s.start.index < r.stop.index

def join (r s : Range) : Range :=
  ⟨min r.start s.start, max r.stop s.stop⟩

/-- The least range that covers all of the ranges, if there are any. -/
def boundingBox : List Range → Option Range
  | [] => none
  | r :: rest => some (rest.foldl join r)

def display (r : Range) : String :=
  r.start.display ++ ".." ++ r.stop.display

end Range

end GrammarShapes
