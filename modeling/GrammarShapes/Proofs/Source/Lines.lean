import GrammarShapes.Proofs.Collection.Search
import GrammarShapes.Proofs.Text.ByteOrder
import GrammarShapes.Source.Lines
import Mathlib.Data.List.Basic

set_option autoImplicit false

/-! # Positions and line feeds

The line of an offset is told by three things: it has a start, the start is not behind the offset, and all
later starts are. The search arrives at that line whatever the offset, and the line feeds of the text name it
too: in UTF-8 the byte of a line feed stands for nothing else, so the starts of the lines are the places
behind these bytes, with zero before them. Hence the line counts the line feeds below the offset, and the
column is measured from the last of them.
-/

namespace GrammarShapes

open Text

def lineFeed : UInt8 := 10

def lineFeedsBelow (s : String) (offset : Nat) : List Nat :=
  ((utf8 s).take offset).idxsOf lineFeed

/-- The offset directly behind the last line feed below an offset, or zero if there is none. -/
def lastStartBelow (s : String) (offset : Nat) : Nat :=
  ((lineFeedsBelow s offset).getLast?.map (· + 1)).getD 0

theorem eq_of_lineFeed_mem {c : Char} (h : lineFeed ∈ String.utf8EncodeChar c) : c = '\n' := by
  have hMax := toNat_lt_of_char c
  rw [lineFeed, String.utf8EncodeChar] at h
  apply Char.ext
  rw [← UInt32.toNat_inj]
  show c.val.toNat = 10
  revert h
  split_ifs <;> simp only [List.mem_cons, List.not_mem_nil, or_false, ← UInt8.toNat_inj,
    UInt8.toNat_ofNat', UInt8.reduceToNat, Nat.reducePow] <;> omega

theorem idxsOf_utf8EncodeChar (c : Char) (offset : Nat) :
    (String.utf8EncodeChar c).idxsOf lineFeed offset = if c = '\n' then [offset] else [] := by
  split
  case isTrue h =>
    rw [h]
    rfl
  case isFalse h =>
    rw [List.idxsOf_eq_nil_iff]
    intro b hMem
    rw [beq_eq_false_iff_ne]
    rintro rfl
    exact h (eq_of_lineFeed_mem hMem)

theorem lineFeedEnds_eq (offset : Nat) (cs : List Char) :
    lineFeedEnds offset cs =
      ((cs.flatMap String.utf8EncodeChar).idxsOf lineFeed offset).map (· + 1) := by
  induction cs generalizing offset with
  | nil => rfl
  | cons c rest ih =>
    rw [List.flatMap_cons, List.idxsOf_append, idxsOf_utf8EncodeChar, String.length_utf8EncodeChar,
      lineFeedEnds, ih]
    split
    case isTrue h =>
      rw [h]
      rfl
    case isFalse h => rfl

theorem exists_idxsOf_utf8_eq_append (s : String) (offset : Nat) :
    ∃ beyond, (utf8 s).idxsOf lineFeed = lineFeedsBelow s offset ++ beyond ∧
      (∀ i ∈ lineFeedsBelow s offset, i < offset) ∧ ∀ i ∈ beyond, offset ≤ i := by
  refine ⟨((utf8 s).drop offset).idxsOf lineFeed ((utf8 s).take offset).length, ?_, ?_, ?_⟩
  · conv_lhs => rw [← List.take_append_drop offset (utf8 s), List.idxsOf_append, Nat.zero_add]
    rfl
  · intro i hi
    have hLt := List.lt_add_of_mem_idxsOf i hi
    rw [List.length_take] at hLt
    omega
  · intro i hi
    have hGe := List.ge_of_mem_idxsOf i hi
    have hLt := List.lt_add_of_mem_idxsOf i hi
    rw [List.length_take] at hGe hLt
    rw [List.length_drop] at hLt
    omega

namespace Lines

variable {l : Lines} {offset line start : Nat}

/-- The line starts at or before the offset, and all later lines behind it. -/
structure Holds (l : Lines) (offset line start : Nat) : Prop where
  start_eq : l.start? line = some start
  start_le : start ≤ offset
  later : ∀ other next, line < other → l.start? other = some next → offset < next

theorem Holds.le {offset' line' start' : Nat} (h : l.Holds offset line start)
    (h' : l.Holds offset' line' start') (hLe : offset ≤ offset') : line ≤ line' := by
  refine Nat.le_of_not_lt fun hLt => ?_
  have hBehind := h'.later line start hLt h.start_eq
  have hStart := h.start_le
  omega

theorem Holds.unique {line' start' : Nat} (h : l.Holds offset line start)
    (h' : l.Holds offset line' start') : line = line' ∧ start = start' := by
  have hLine : line = line' := Nat.le_antisymm (h.le h' (Nat.le_refl _)) (h'.le h (Nat.le_refl _))
  refine ⟨hLine, Option.some.inj ?_⟩
  rw [← h.start_eq, ← h'.start_eq, hLine]

/-- A number that is not among the starts would be inserted behind the first of them. -/
theorem pos_of_seek {place : Nat} (l : Lines) (h : seek l.starts offset = .missing place) : 0 < place := by
  refine Nat.pos_of_ne_zero fun hZero => ?_
  have hLt := (sides_of_seek l.ascending h l.starts_zero).2 (Nat.le_of_eq hZero)
  omega

theorem exists_holds_lineAt (l : Lines) (offset : Nat) : ∃ start, l.Holds offset (l.lineAt offset) start := by
  cases hSeek : seek l.starts offset with
  | found place =>
    have hLine : l.lineAt offset = place := by rw [lineAt, hSeek]
    have hPlace := getElem?_of_seek l.ascending hSeek
    rw [hLine]
    exact ⟨offset, hPlace, Nat.le_refl _, fun other next hLt => lt_of_pairwise l.ascending hLt hPlace⟩
  | missing place =>
    have hLine : l.lineAt offset = place - 1 := by rw [lineAt, hSeek]
    have hPos := l.pos_of_seek hSeek
    have hSize := le_size_of_seek l.ascending hSeek
    have hBefore : l.starts[place - 1]? = some l.starts[place - 1] := Array.getElem?_eq_getElem (by omega)
    rw [hLine]
    refine ⟨l.starts[place - 1], hBefore, ?_, fun other next hLt hNext => ?_⟩
    · exact Nat.le_of_lt ((sides_of_seek l.ascending hSeek hBefore).1 (by omega))
    · exact (sides_of_seek l.ascending hSeek hNext).2 (by omega)

theorem positionAt_of_holds (h : l.Holds offset line start) :
    l.positionAt offset = ⟨offset, line, offset - start⟩ := by
  obtain ⟨start', hLine⟩ := l.exists_holds_lineAt offset
  obtain ⟨rfl, rfl⟩ := h.unique hLine
  rw [positionAt, h.start_eq, Option.getD_some]

theorem toList_starts_ofString (s : String) :
    (ofString s).starts.toList = 0 :: ((utf8 s).idxsOf lineFeed).map (· + 1) := by
  rw [utf8_eq_flatMap, ← lineFeedEnds_eq]
  rfl

theorem holds_ofString (s : String) (offset : Nat) :
    (ofString s).Holds offset (lineFeedsBelow s offset).length (lastStartBelow s offset) := by
  obtain ⟨beyond, hFeeds, hBelow, hBeyond⟩ := exists_idxsOf_utf8_eq_append s offset
  have hStart? : ∀ line, (ofString s).start? line =
      ((0 :: (lineFeedsBelow s offset).map (· + 1)) ++ beyond.map (· + 1))[line]? := by
    intro line
    rw [start?, ← Array.getElem?_toList, toList_starts_ofString, hFeeds, List.map_append, List.cons_append]
  refine ⟨?_, ?_, fun other next hLt hNext => ?_⟩
  · rw [hStart?, List.getElem?_append_left (by simp), lastStartBelow]
    rcases List.eq_nil_or_concat (lineFeedsBelow s offset) with hNone | ⟨front, i, hSome⟩
    · rw [hNone]
      rfl
    · simp [hSome]
  · rcases List.eq_nil_or_concat (lineFeedsBelow s offset) with hNone | ⟨front, i, hSome⟩
    · rw [lastStartBelow, hNone]
      exact Nat.zero_le _
    · have hLast := hBelow i (by simp [hSome])
      simpa [lastStartBelow, hSome] using Nat.succ_le_of_lt hLast
  · rw [hStart?, List.getElem?_append_right (by simpa using Nat.succ_le_of_lt hLt)] at hNext
    obtain ⟨i, hi, rfl⟩ := List.mem_map.mp (List.mem_of_getElem? hNext)
    exact Nat.lt_succ_of_le (hBeyond i hi)

/-- The line of an offset is the number of line feeds below it, and its column counts from the offset behind
the last of these, or from zero. The search does not step before the first line, and no line that it finds
starts behind the offset, so line start and column add up to the offset. There is one line more than there
are line feeds, and later offsets do not have earlier places. -/
theorem positionAt_ofString (s : String) (offset : Nat) :
    (ofString s).positionAt offset =
      ⟨offset, ((utf8 s).take offset).count lineFeed, offset - lastStartBelow s offset⟩ ∧
    (∀ place, seek (ofString s).starts offset = .missing place → 0 < place) ∧
    (∃ start, (ofString s).start? ((ofString s).positionAt offset).line = some start ∧ start ≤ offset ∧
      start + ((ofString s).positionAt offset).column = offset) ∧
    (ofString s).count = (utf8 s).count lineFeed + 1 ∧
    ∀ later, offset ≤ later →
      ((ofString s).positionAt offset).line < ((ofString s).positionAt later).line ∨
      ((ofString s).positionAt offset).line = ((ofString s).positionAt later).line ∧
        ((ofString s).positionAt offset).column ≤ ((ofString s).positionAt later).column := by
  have hHolds := holds_ofString s offset
  refine ⟨?_, fun place => (ofString s).pos_of_seek, ?_, ?_, fun later hLe => ?_⟩
  · rw [positionAt_of_holds hHolds, lineFeedsBelow, List.length_idxsOf]
  · rw [positionAt_of_holds hHolds]
    exact ⟨_, hHolds.start_eq, hHolds.start_le, Nat.add_sub_of_le hHolds.start_le⟩
  · rw [count, ← Array.length_toList, toList_starts_ofString, List.length_cons, List.length_map,
      List.length_idxsOf]
  · have hLater := holds_ofString s later
    rw [positionAt_of_holds hHolds, positionAt_of_holds hLater]
    rcases Nat.lt_or_eq_of_le (hHolds.le hLater hLe) with hLt | hEq
    · exact Or.inl hLt
    · have hStart := hLater.start_eq
      rw [← hEq, hHolds.start_eq, Option.some.injEq] at hStart
      exact Or.inr ⟨hEq, by rw [hStart]; exact Nat.sub_le_sub_right hLe _⟩

end Lines

end GrammarShapes
