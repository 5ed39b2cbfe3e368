import GrammarShapes.Source.Range
import Mathlib.Order.MinMax
import Mathlib.Tactic.Tauto

set_option autoImplicit false

/-! # Ranges that overlap, and ranges around ranges

Two ranges share a byte if and only if they overlap and neither is empty. So overlapping tells more than a
shared byte in one case only: an empty range strictly between the ends of another one overlaps it.

A range encloses another if it starts no later and ends no earlier. The bounding box of some ranges is the
least that encloses them: what encloses all of them encloses it. This property alone tells the box, so
neither the order nor the repetition of the ranges nor a grouping of them matters.
-/

namespace GrammarShapes

namespace Position

theorem le_antisymm {a b : Position} (hab : a ≤ b) (hba : b ≤ a) : a = b := by
  obtain ⟨index, line, column⟩ := a
  obtain ⟨index', line', column'⟩ := b
  simp only [le_iff] at hab hba
  simp only [mk.injEq]
  omega

instance : LinearOrder Position where
  le_refl := le_refl
  le_trans _ _ _ := le_trans
  le_antisymm _ _ := le_antisymm
  le_total := le_total
  toDecidableLE := inferInstance

theorem index_le {a b : Position} (h : a ≤ b) : a.index ≤ b.index := by
  rw [le_iff] at h
  omega

end Position

namespace Range

variable {b c r s : Range} {rs ss : List Range}

def SharesByte (r s : Range) : Prop :=
  ∃ p, r.contains p = true ∧ s.contains p = true

/-- The range is empty and stands strictly between the ends of another one. -/
def IsGapIn (r s : Range) : Prop :=
  r.isEmpty = true ∧ s.start.index < r.start.index ∧ r.start.index < s.stop.index

theorem contains_iff {p : Position} :
    r.contains p = true ↔ r.start.index ≤ p.index ∧ p.index < r.stop.index := by
  simp [contains]

theorem overlaps_iff :
    r.overlaps s = true ↔ r.start.index < s.stop.index ∧ s.start.index < r.stop.index := by
  simp [overlaps]

theorem isEmpty_iff : r.isEmpty = true ↔ r.stop.index ≤ r.start.index := by
  simp [isEmpty, length, Nat.sub_eq_zero_iff_le]

theorem sharesByte_iff :
    r.SharesByte s ↔ r.overlaps s = true ∧ ¬ r.isEmpty = true ∧ ¬ s.isEmpty = true := by
  simp only [SharesByte, contains_iff, overlaps_iff, isEmpty_iff]
  constructor
  · rintro ⟨p, hr, hs⟩
    omega
  · rintro ⟨⟨hrs, hsr⟩, hr, hs⟩
    refine ⟨{ index := max r.start.index s.start.index }, ?_⟩
    simp only
    omega

theorem isGapIn_iff (h : r.start.index ≤ r.stop.index) :
    r.IsGapIn s ↔ r.isEmpty = true ∧ r.overlaps s = true := by
  rw [IsGapIn, isEmpty_iff, overlaps_iff]
  omega

theorem overlaps_comm (r s : Range) : r.overlaps s = s.overlaps r := by
  rw [Bool.eq_iff_iff, overlaps_iff, overlaps_iff, and_comm]

/-- Ranges overlap if and only if they share a byte or one is a gap in the other. So overlapping is the same
as sharing a byte if and only if neither is a gap in the other. -/
theorem overlaps_iff_sharesByte_or_isGapIn (hr : r.start.index ≤ r.stop.index)
    (hs : s.start.index ≤ s.stop.index) :
    (r.overlaps s = true ↔ r.SharesByte s ∨ r.IsGapIn s ∨ s.IsGapIn r) ∧
    ((r.overlaps s = true ↔ r.SharesByte s) ↔ ¬ r.IsGapIn s ∧ ¬ s.IsGapIn r) := by
  have hOverlaps : r.overlaps s = true ↔ r.SharesByte s ∨ r.IsGapIn s ∨ s.IsGapIn r := by
    rw [sharesByte_iff, isGapIn_iff hr, isGapIn_iff hs, overlaps_comm s r]
    tauto
  refine ⟨hOverlaps, ?_⟩
  constructor
  · intro hSame
    have hGaps : ∀ {a b : Range}, a.IsGapIn b → ¬ a.SharesByte b ∧ ¬ b.SharesByte a := fun hGap =>
      ⟨fun h => (sharesByte_iff.mp h).2.1 hGap.1, fun h => (sharesByte_iff.mp h).2.2 hGap.1⟩
    exact ⟨fun hGap => (hGaps hGap).1 (hSame.mp (hOverlaps.mpr (.inr (.inl hGap)))),
      fun hGap => (hGaps hGap).2 (hSame.mp (hOverlaps.mpr (.inr (.inr hGap))))⟩
  · rintro ⟨hrs, hsr⟩
    rw [hOverlaps, or_iff_left (not_or.mpr ⟨hrs, hsr⟩)]

def onOneLine (start stop : Nat) : Range :=
  ⟨{ index := start, column := start }, { index := stop, column := stop }⟩

theorem overlaps_gap_iff :
    (onOneLine 4 4).start.index ≤ (onOneLine 4 4).stop.index ∧
    (onOneLine 0 10).start.index ≤ (onOneLine 0 10).stop.index ∧
    ((onOneLine 4 4).overlaps (onOneLine 0 4) = true ↔ (onOneLine 4 4).SharesByte (onOneLine 0 4)) ∧
    ¬ ((onOneLine 4 4).overlaps (onOneLine 0 10) = true ↔
      (onOneLine 4 4).SharesByte (onOneLine 0 10)) := by
  refine ⟨by decide, by decide, ?_, fun h => ?_⟩
  · refine (overlaps_iff_sharesByte_or_isGapIn (by decide) (by decide)).2.mpr ⟨?_, ?_⟩
    · exact fun hGap => absurd hGap.2.2 (by decide)
    · exact fun hGap => absurd hGap.1 (by decide)
  · have hNoGap := (overlaps_iff_sharesByte_or_isGapIn (by decide) (by decide)).2.mp h
    exact hNoGap.1 ⟨rfl, by decide, by decide⟩

/-- An empty range within another one has no byte to share. -/
theorem not_forall_overlaps_iff_sharesByte :
    ¬ ∀ r s : Range, r.start.index ≤ r.stop.index → s.start.index ≤ s.stop.index →
      (r.overlaps s = true ↔ r.SharesByte s) := by
  intro h
  have hShared := (h (onOneLine 4 4) (onOneLine 0 10) (by decide) (by decide)).mp rfl
  exact (sharesByte_iff.mp hShared).2.1 rfl

def Encloses (b r : Range) : Prop :=
  b.start ≤ r.start ∧ r.stop ≤ b.stop

theorem Encloses.refl (r : Range) : r.Encloses r :=
  ⟨le_rfl, le_rfl⟩

theorem Encloses.antisymm (hb : b.Encloses c) (hc : c.Encloses b) : b = c := by
  obtain ⟨start, stop⟩ := b
  obtain ⟨start', stop'⟩ := c
  rw [mk.injEq]
  exact ⟨le_antisymm hb.1 hc.1, le_antisymm hc.2 hb.2⟩

theorem Encloses.contains {p : Position} (h : b.Encloses r) (hp : r.contains p = true) :
    b.contains p = true := by
  rw [contains_iff] at hp ⊢
  exact ⟨(Position.index_le h.1).trans hp.1, hp.2.trans_le (Position.index_le h.2)⟩

theorem encloses_join_iff : c.Encloses (r.join s) ↔ c.Encloses r ∧ c.Encloses s := by
  simp only [Encloses, join, le_min_iff, max_le_iff]
  exact and_and_and_comm

theorem encloses_foldl_join_iff :
    c.Encloses (rs.foldl join r) ↔ c.Encloses r ∧ ∀ s ∈ rs, c.Encloses s := by
  induction rs generalizing r with
  | nil => simp
  | cons s rs ih =>
    rw [List.foldl_cons, ih, encloses_join_iff, List.forall_mem_cons, and_assoc]

theorem boundingBox_eq_none_iff : boundingBox rs = none ↔ rs = [] := by
  cases rs <;> simp [boundingBox]

theorem encloses_iff_of_boundingBox (h : boundingBox rs = some b) :
    c.Encloses b ↔ ∀ r ∈ rs, c.Encloses r := by
  cases rs with
  | nil => cases h
  | cons r rs =>
    cases h
    rw [encloses_foldl_join_iff, List.forall_mem_cons]

/-- The bounding box is told by the ranges that enclose it. -/
theorem boundingBox_eq_some_iff :
    boundingBox rs = some b ↔ rs ≠ [] ∧ ∀ c : Range, c.Encloses b ↔ ∀ r ∈ rs, c.Encloses r := by
  constructor
  · intro h
    refine ⟨fun hNil => ?_, fun c => encloses_iff_of_boundingBox h⟩
    rw [boundingBox_eq_none_iff.mpr hNil] at h
    cases h
  · rintro ⟨hSome, hLeast⟩
    obtain ⟨a, ha⟩ := Option.ne_none_iff_exists'.mp (mt boundingBox_eq_none_iff.mp hSome)
    have hab : a.Encloses b := (hLeast a).mpr ((encloses_iff_of_boundingBox ha).mp (.refl a))
    have hba : b.Encloses a := (encloses_iff_of_boundingBox ha).mpr ((hLeast b).mp (.refl b))
    rw [ha, hab.antisymm hba]

theorem boundingBox_congr (h : ∀ r, r ∈ rs ↔ r ∈ ss) : boundingBox rs = boundingBox ss := by
  have hNil : rs = [] ↔ ss = [] := by
    simp only [List.eq_nil_iff_forall_not_mem, h]
  apply Option.ext
  intro b
  rw [boundingBox_eq_some_iff, boundingBox_eq_some_iff, ne_eq, ne_eq, hNil]
  simp only [h]

theorem boundingBox_append {a : Range} (ha : boundingBox rs = some a) (hb : boundingBox ss = some b) :
    boundingBox (rs ++ ss) = boundingBox [a, b] := by
  obtain ⟨d, hd⟩ : ∃ d, boundingBox [a, b] = some d := ⟨_, rfl⟩
  rw [hd, boundingBox_eq_some_iff]
  refine ⟨?_, fun c => ?_⟩
  · exact List.append_ne_nil_of_left_ne_nil (boundingBox_eq_some_iff.mp ha).1 ss
  · rw [encloses_iff_of_boundingBox hd, List.forall_mem_append, List.forall_mem_cons,
      List.forall_mem_singleton, encloses_iff_of_boundingBox ha, encloses_iff_of_boundingBox hb]

/-- There is a bounding box if there are ranges. It starts no later and ends no earlier than any of them, no
range with this property starts later or ends earlier, and it holds every byte of each. Lists of the same
ranges have the same box, and the box of two rows of ranges is the box of their boxes. -/
theorem boundingBox_is_least :
    (∀ rs, boundingBox rs = none ↔ rs = []) ∧
    (∀ rs b, boundingBox rs = some b →
      (∀ r ∈ rs, b.start ≤ r.start ∧ r.stop ≤ b.stop) ∧
      (∀ c : Range, (∀ r ∈ rs, c.start ≤ r.start ∧ r.stop ≤ c.stop) →
        c.start ≤ b.start ∧ b.stop ≤ c.stop) ∧
      ∀ r ∈ rs, ∀ p, r.contains p = true → b.contains p = true) ∧
    (∀ rs ss : List Range, (∀ r, r ∈ rs ↔ r ∈ ss) → boundingBox rs = boundingBox ss) ∧
    ∀ rs ss, rs ≠ [] → ss ≠ [] → ∃ a b, boundingBox rs = some a ∧ boundingBox ss = some b ∧
      boundingBox (rs ++ ss) = boundingBox [a, b] := by
  refine ⟨fun rs => boundingBox_eq_none_iff, fun rs b h => ?_, fun rs ss => boundingBox_congr, ?_⟩
  · have hEncloses : ∀ r ∈ rs, b.Encloses r := (encloses_iff_of_boundingBox h).mp (.refl b)
    refine ⟨hEncloses, fun c hc => (encloses_iff_of_boundingBox h).mpr hc, fun r hr p hp => ?_⟩
    exact (hEncloses r hr).contains hp
  · intro rs ss hrs hss
    obtain ⟨a, ha⟩ := Option.ne_none_iff_exists'.mp (mt boundingBox_eq_none_iff.mp hrs)
    obtain ⟨b, hb⟩ := Option.ne_none_iff_exists'.mp (mt boundingBox_eq_none_iff.mp hss)
    exact ⟨a, b, ha, hb, boundingBox_append ha hb⟩

end Range

end GrammarShapes
