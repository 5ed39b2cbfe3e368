import GrammarShapes.Collection.Search

set_option autoImplicit false

/-! # What a search finds

As long as a search goes on, the number sought is not below the part of the row that is left, unless that
part begins the row, and it is below everything behind that part. So in an ascending row a number that is
found stands at its place, and for a missing one the smaller numbers are those before its place.
-/

namespace GrammarShapes

variable {row : Array Nat} {x : Nat}

theorem lt_of_pairwise (h : row.toList.Pairwise (· < ·)) {i j a b : Nat} (hij : i < j)
    (hi : row[i]? = some a) (hj : row[j]? = some b) : a < b := by
  obtain ⟨hiSize, rfl⟩ := Array.getElem?_eq_some_iff.mp hi
  obtain ⟨hjSize, rfl⟩ := Array.getElem?_eq_some_iff.mp hj
  exact List.pairwise_iff_getElem.mp h i j hiSize hjSize hij

structure Bracketed (row : Array Nat) (x base stop : Nat) : Prop where
  above : base = 0 ∨ ∃ y, row[base]? = some y ∧ y ≤ x
  below : ∀ i y, stop ≤ i → row[i]? = some y → x < y

theorem bracketed_all (row : Array Nat) (x : Nat) : Bracketed row x 0 (0 + row.size) where
  above := Or.inl rfl
  below i y hi hy := by
    have hSize := (Array.getElem?_eq_some_iff.mp hy).1
    omega

theorem bracketed_narrow (hAscending : row.toList.Pairwise (· < ·)) {base size : Nat} (hSize : 0 < size)
    (hFits : base + size ≤ row.size) (h : Bracketed row x base (base + size)) :
    Bracketed row x (narrow row x base size hSize hFits) (narrow row x base size hSize hFits + 1) := by
  fun_induction narrow row x base size hSize hFits with
  | case1 base _ _ => exact h
  | case2 base size hSize hFits hOne hLt ih =>
    refine ih ⟨h.above, fun i y hi hy => ?_⟩
    have hMiddle : row[base + size / 2]? = some row[base + size / 2] := Array.getElem?_eq_getElem _
    rcases Nat.eq_or_lt_of_le (show base + size / 2 ≤ i by omega) with rfl | hBehind
    · rw [hMiddle] at hy
      cases hy
      exact hLt
    · exact Nat.lt_trans hLt (lt_of_pairwise hAscending hBehind hMiddle hy)
  | case3 base size hSize hFits hOne hLt ih =>
    refine ih ⟨Or.inr ⟨_, Array.getElem?_eq_getElem _, Nat.le_of_not_lt hLt⟩, fun i y hi hy => ?_⟩
    exact h.below i y (by omega) hy

/-- A search compares the number with the one at the only place that is left. -/
theorem seek_cases (hAscending : row.toList.Pairwise (· < ·)) (x : Nat) :
    (row.size = 0 ∧ seek row x = .missing 0) ∨
    ∃ place y, row[place]? = some y ∧ Bracketed row x place (place + 1) ∧
      ((y = x ∧ seek row x = .found place) ∨ (y < x ∧ seek row x = .missing (place + 1)) ∨
        (x < y ∧ seek row x = .missing place)) := by
  rcases Nat.eq_zero_or_pos row.size with hNone | hSize
  · exact Or.inl ⟨hNone, by rw [seek, dif_neg (by omega)]⟩
  · have hPlace := bracketed_narrow hAscending hSize (by omega) (bracketed_all row x)
    refine Or.inr ⟨_, _, Array.getElem?_eq_getElem (Fin.isLt _), hPlace, ?_⟩
    rcases Nat.lt_trichotomy (row[narrow row x 0 row.size hSize (by omega)]) x with hLt | hEq | hGt
    · refine Or.inr (Or.inl ⟨hLt, ?_⟩)
      rw [seek, dif_pos hSize, if_neg (Nat.ne_of_lt hLt), if_pos hLt]
    · refine Or.inl ⟨hEq, ?_⟩
      rw [seek, dif_pos hSize, if_pos hEq]
    · refine Or.inr (Or.inr ⟨hGt, ?_⟩)
      rw [seek, dif_pos hSize, if_neg (Nat.ne_of_gt hGt), if_neg (Nat.lt_asymm hGt)]

theorem getElem?_of_seek (hAscending : row.toList.Pairwise (· < ·)) {place : Nat}
    (h : seek row x = .found place) : row[place]? = some x := by
  rcases seek_cases hAscending x with ⟨-, hSeek⟩ | ⟨place', y, hy, -, ⟨rfl, hSeek⟩ | ⟨-, hSeek⟩ | ⟨-, hSeek⟩⟩ <;>
    rw [hSeek] at h <;> cases h
  exact hy

theorem missing_cases (hAscending : row.toList.Pairwise (· < ·)) {place : Nat}
    (h : seek row x = .missing place) :
    (row.size = 0 ∧ place = 0) ∨
    ∃ last y, row[last]? = some y ∧ Bracketed row x last (last + 1) ∧
      ((y < x ∧ place = last + 1) ∨ (x < y ∧ place = last)) := by
  rcases seek_cases hAscending x with
    ⟨hNone, hSeek⟩ | ⟨last, y, hy, hLast, ⟨-, hSeek⟩ | ⟨hLt, hSeek⟩ | ⟨hGt, hSeek⟩⟩ <;>
    rw [hSeek] at h <;> cases h
  · exact Or.inl ⟨hNone, rfl⟩
  · exact Or.inr ⟨last, y, hy, hLast, Or.inl ⟨hLt, rfl⟩⟩
  · exact Or.inr ⟨_, y, hy, hLast, Or.inr ⟨hGt, rfl⟩⟩

theorem le_size_of_seek (hAscending : row.toList.Pairwise (· < ·)) {place : Nat}
    (h : seek row x = .missing place) : place ≤ row.size := by
  rcases missing_cases hAscending h with ⟨-, rfl⟩ | ⟨last, y, hy, -, ⟨-, rfl⟩ | ⟨-, rfl⟩⟩
  · exact Nat.zero_le _
  all_goals
    have hLast := (Array.getElem?_eq_some_iff.mp hy).1
    omega

theorem sides_of_seek (hAscending : row.toList.Pairwise (· < ·)) {place i z : Nat}
    (h : seek row x = .missing place) (hz : row[i]? = some z) :
    (i < place → z < x) ∧ (place ≤ i → x < z) := by
  rcases missing_cases hAscending h with
    ⟨hNone, -⟩ | ⟨last, y, hy, hLast, ⟨hLt, rfl⟩ | ⟨hGt, rfl⟩⟩
  · have hSize := (Array.getElem?_eq_some_iff.mp hz).1
    omega
  · refine ⟨fun hi => ?_, fun hi => hLast.below i z hi hz⟩
    rcases Nat.eq_or_lt_of_le (Nat.le_of_lt_succ hi) with rfl | hBefore
    · rw [hy] at hz
      cases hz
      exact hLt
    · exact Nat.lt_trans (lt_of_pairwise hAscending hBefore hz hy) hLt
  · -- the number at the place is too great, so the place is the first one
    have hFirst : place = 0 := by
      rcases hLast.above with hFirst | ⟨y', hy', hLe⟩
      · exact hFirst
      · rw [hy] at hy'
        cases hy'
        omega
    refine ⟨fun hi => by omega, fun hi => ?_⟩
    rcases Nat.eq_or_lt_of_le hi with rfl | hBehind
    · rw [hy] at hz
      cases hz
      exact hGt
    · exact hLast.below i z hBehind hz

end GrammarShapes
