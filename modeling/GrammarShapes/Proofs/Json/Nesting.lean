import GrammarShapes.Proofs.Json.Limited
import GrammarShapes.Proofs.Outcome

set_option autoImplicit false

/-! # The nesting of drafts

The draft of a text is never nested deeper than a reader may go, whatever the text is: the machine breaks
every array and object for which there is no room. The invariant is that each frame leaves room for what it
holds. A value that is read from a draft is nested as deep as the draft.
-/

namespace GrammarShapes.Json

theorem nestingMembers_le_iff {n : Nat} {members : List (String × Json)} :
    nestingMembers members ≤ n ↔ ∀ m ∈ members, m.2.nesting ≤ n := by
  induction members with
  | nil => simp [nestingMembers]
  | cons m members ih => rw [nestingMembers, Nat.max_le, ih, List.forall_mem_cons]

mutual

theorem nesting_sorted_le : ∀ v : Json, v.sorted.nesting ≤ v.nesting
  | .null => Nat.le_refl _
  | .boolean _ => Nat.le_refl _
  | .number _ => Nat.le_refl _
  | .string _ => Nat.le_refl _
  | .array items => Nat.succ_le_succ (nestingItems_sortedItems_le items)
  | .object members => Nat.succ_le_succ (nestingMembers_sortedMembers_le members)

theorem nestingItems_sortedItems_le : ∀ items : List Json,
    nestingItems (sortedItems items) ≤ nestingItems items
  | [] => Nat.le_refl _
  | v :: items => by
      have hHead := nesting_sorted_le v
      have hTail := nestingItems_sortedItems_le items
      rw [sortedItems, nestingItems, nestingItems]
      omega

theorem nestingMembers_sortedMembers_le : ∀ members : List (String × Json),
    nestingMembers (sortedMembers members) ≤ nestingMembers members
  | [] => Nat.le_refl _
  | (name, v) :: members => by
      have hHead := nesting_sorted_le v
      have hTail := nestingMembers_sortedMembers_le members
      rw [sortedMembers, nestingMembers]
      split
      · omega
      · rw [nestingMembers_le_iff]
        intro m hm
        rcases mem_insertMember_iff.mp hm with rfl | hm
        · exact Nat.le_trans hHead (Nat.le_max_left _ _)
        · exact Nat.le_trans (nestingMembers_le_iff.mp hTail m hm) (Nat.le_max_right _ _)

end

namespace Draft

mutual

/-- How many arrays and objects stand inside each other in a draft. What is broken holds none. -/
def nesting : Draft → Nat
  | .array items _ => nestingItems items + 1
  | .object members _ => nestingMembers members + 1
  | .null => 0
  | .boolean _ => 0
  | .number _ => 0
  | .string _ => 0
  | .broken _ _ => 0

def nestingItems : List Draft → Nat
  | [] => 0
  | d :: rest => max (nesting d) (nestingItems rest)

def nestingMembers : List (Except Fault String × Draft) → Nat
  | [] => 0
  | (_, d) :: rest => max (nesting d) (nestingMembers rest)

end

theorem nestingItems_le_iff {n : Nat} {items : List Draft} :
    nestingItems items ≤ n ↔ ∀ d ∈ items, d.nesting ≤ n := by
  induction items with
  | nil => simp [nestingItems]
  | cons d items ih => rw [nestingItems, Nat.max_le, ih, List.forall_mem_cons]

theorem nestingMembers_le_iff {n : Nat} {members : List (Except Fault String × Draft)} :
    nestingMembers members ≤ n ↔ ∀ m ∈ members, m.2.nesting ≤ n := by
  induction members with
  | nil => simp [nestingMembers]
  | cons m members ih => rw [nestingMembers, Nat.max_le, ih, List.forall_mem_cons]

end Draft

/-- Whether `n` arrays and objects inside each other are enough for each part of a frame. -/
def Frame.Fits (n : Nat) : Frame → Prop
  | .array items => ∀ d ∈ items, d.nesting ≤ n
  | .object members _ => ∀ m ∈ members, m.2.nesting ≤ n

namespace Scan

def FramesFit : List Frame → Prop
  | [] => True
  | f :: frames => f.Fits (roomAt (frames.length + 1)) ∧ FramesFit frames

def Fits : Scan → Prop
  | .value frames => FramesFit frames
  | .firstItem frames => FramesFit frames
  | .nextItem items frames => FramesFit (.array items :: frames)
  | .afterItem items frames => FramesFit (.array items :: frames)
  | .firstName frames => FramesFit frames
  -- the name of a frame plays no part, and where none has been read any name stands for it
  | .nextName members frames => FramesFit (.object members (.ok "") :: frames)
  | .colon members name frames => FramesFit (.object members name :: frames)
  | .afterMember members frames => FramesFit (.object members (.ok "") :: frames)
  | .ended document => document.root.nesting ≤ roomAt 0

section Steps

variable {frames : List Frame} {d : Draft}

theorem nesting_nested_le (h : d.nesting ≤ roomAt (frames.length + 1) + 1) :
    (nested d frames).nesting ≤ roomAt frames.length := by
  unfold nested
  split
  · rename_i hRoom
    have hLength := hasRoom_iff.mp hRoom
    unfold roomAt at *
    omega
  · exact Nat.zero_le _

theorem nesting_nested_array_le {items : List Draft} (ending : ArrayEnd)
    (h : ∀ d ∈ items, d.nesting ≤ roomAt (frames.length + 1)) :
    (nested (.array items ending) frames).nesting ≤ roomAt frames.length :=
  nesting_nested_le (Nat.succ_le_succ (Draft.nestingItems_le_iff.mpr h))

theorem nesting_nested_object_le {members : List (Except Fault String × Draft)} (ending : ObjectEnd)
    (h : ∀ m ∈ members, m.2.nesting ≤ roomAt (frames.length + 1)) :
    (nested (.object members ending) frames).nesting ≤ roomAt frames.length :=
  nesting_nested_le (Nat.succ_le_succ (Draft.nestingMembers_le_iff.mpr h))

theorem nesting_enclose_le (hDraft : d.nesting ≤ roomAt frames.length) (h : FramesFit frames) :
    (enclose d frames).nesting ≤ roomAt 0 := by
  induction frames generalizing d with
  | nil => exact hDraft
  | cons f frames ih =>
    cases f with
    | array items =>
      apply ih _ h.2
      apply nesting_nested_array_le
      simp only [List.forall_mem_append, List.mem_reverse, List.forall_mem_singleton]
      exact ⟨h.1, hDraft⟩
    | object members name =>
      apply ih _ h.2
      apply nesting_nested_object_le
      simp only [List.forall_mem_append, List.mem_reverse, List.forall_mem_singleton]
      exact ⟨h.1, hDraft⟩

theorem fits_stop (hDraft : d.nesting ≤ roomAt frames.length) (h : FramesFit frames) :
    (stop d frames).Fits :=
  nesting_enclose_le hDraft h

theorem fits_complete (hDraft : d.nesting ≤ roomAt frames.length) (h : FramesFit frames) :
    (complete d frames).Fits := by
  cases frames with
  | nil => exact hDraft
  | cons f frames =>
    cases f with
    | array items => exact ⟨List.forall_mem_cons.mpr ⟨hDraft, h.1⟩, h.2⟩
    | object members name => exact ⟨List.forall_mem_cons.mpr ⟨hDraft, h.1⟩, h.2⟩

theorem fits_startValue (h : FramesFit frames) (t : Token) : (startValue frames t).Fits := by
  cases t with
  | leftBracket | leftBrace => exact h
  | null | boolean _ | number _ | string _ => exact fits_complete (Nat.zero_le _) h
  | rightBracket | rightBrace | comma | colon | broken _ _ | brokenString _ _ =>
    exact fits_stop (Nat.zero_le _) h

end Steps

section Containers

variable {frames : List Frame} {items : List Draft} {members : List (Except Fault String × Draft)}
  {name : Except Fault String}

theorem nesting_array_le (h : FramesFit (.array items :: frames)) (ending : ArrayEnd) :
    (nested (.array items.reverse ending) frames).nesting ≤ roomAt frames.length :=
  nesting_nested_array_le ending fun d hd => h.1 d (List.mem_reverse.mp hd)

theorem nesting_object_le (h : FramesFit (.object members name :: frames)) (ending : ObjectEnd) :
    (nested (.object members.reverse ending) frames).nesting ≤ roomAt frames.length :=
  nesting_nested_object_le ending fun m hm => h.1 m (List.mem_reverse.mp hm)

theorem framesFit_array_nil (h : FramesFit frames) : FramesFit (.array [] :: frames) :=
  ⟨List.forall_mem_nil _, h⟩

theorem framesFit_object_nil (h : FramesFit frames) : FramesFit (.object [] (.ok "") :: frames) :=
  ⟨List.forall_mem_nil _, h⟩

theorem fits_startName (h : FramesFit (.object members name :: frames)) (t : Token) :
    (startName members frames t).Fits := by
  cases t with
  | string name => exact h
  | null | boolean _ | number _ | leftBracket | leftBrace | rightBracket | rightBrace | comma | colon
  | broken _ _ | brokenString _ _ => exact fits_stop (nesting_object_le h _) h.2

end Containers

theorem step_firstName {t : Token} (frames : List Frame) (h : t ≠ .rightBrace) :
    step (.firstName frames) t = startName [] frames t := by
  cases t <;> first | rfl | exact absurd rfl h

theorem step_nextName {t : Token} (members : List (Except Fault String × Draft)) (frames : List Frame)
    (h : t ≠ .rightBrace) : step (.nextName members frames) t = startName members frames t := by
  cases t <;> first | rfl | exact absurd rfl h

theorem fits_step {s : Scan} (h : s.Fits) (t : Token) : (s.step t).Fits := by
  cases s with
  | value frames => exact fits_startValue h t
  | firstItem frames =>
    have hEmpty := framesFit_array_nil h
    by_cases hClose : t = .rightBracket
    · subst hClose
      exact fits_complete (nesting_array_le hEmpty .closed) h
    · rw [step_firstItem frames hClose]
      exact fits_startValue hEmpty t
  | nextItem items frames =>
    by_cases hClose : t = .rightBracket
    · subst hClose
      exact fits_stop (nesting_array_le h .comma) h.2
    · rw [step_nextItem items frames hClose]
      exact fits_startValue h t
  | afterItem items frames =>
    cases t with
    | comma => exact h
    | rightBracket => exact fits_complete (nesting_array_le h .closed) h.2
    | _ => exact fits_stop (nesting_array_le h .stray) h.2
  | firstName frames =>
    have hEmpty := framesFit_object_nil h
    by_cases hClose : t = .rightBrace
    · subst hClose
      exact fits_complete (nesting_object_le hEmpty .closed) h
    · rw [step_firstName frames hClose]
      exact fits_startName hEmpty t
  | nextName members frames =>
    by_cases hClose : t = .rightBrace
    · subst hClose
      exact fits_stop (nesting_object_le h .comma) h.2
    · rw [step_nextName members frames hClose]
      exact fits_startName h t
  | colon members name frames =>
    cases t with
    | colon => exact h
    | _ => exact fits_stop (Nat.zero_le _) h
  | afterMember members frames =>
    cases t with
    | comma => exact h
    | rightBrace => exact fits_complete (nesting_object_le h .closed) h.2
    | _ => exact fits_stop (nesting_object_le h .stray) h.2
  | ended document => exact h

theorem fits_foldl {s : Scan} (h : s.Fits) (ts : List Token) : (ts.foldl step s).Fits := by
  induction ts generalizing s with
  | nil => exact h
  | cons t ts ih => exact ih (fits_step h t)

theorem nesting_finish_le {s : Scan} (h : s.Fits) : s.finish.root.nesting ≤ roomAt 0 := by
  cases s with
  | value frames => exact nesting_enclose_le (Nat.zero_le _) h
  | firstItem frames => exact nesting_enclose_le (nesting_array_le (framesFit_array_nil h) .textEnd) h
  | nextItem items frames => exact nesting_enclose_le (nesting_array_le h .commaTextEnd) h.2
  | afterItem items frames => exact nesting_enclose_le (nesting_array_le h .textEnd) h.2
  | firstName frames =>
    exact nesting_enclose_le (nesting_object_le (framesFit_object_nil h) .textEnd) h
  | nextName members frames => exact nesting_enclose_le (nesting_object_le h .commaTextEnd) h.2
  | colon members name frames => exact nesting_enclose_le (Nat.zero_le _) h
  | afterMember members frames => exact nesting_enclose_le (nesting_object_le h .textEnd) h.2
  | ended document => exact h

end Scan

/-- No text has a draft that is nested deeper than may be. -/
theorem Document.nesting_ofText_le (t : Text) : (Document.ofText t).root.nesting ≤ nestingLimit :=
  Scan.nesting_finish_le (Scan.fits_foldl (show (Scan.value []).Fits from trivial) (tokens t))

namespace Draft

mutual

theorem nesting_of_read : ∀ (d : Draft) (v : Json), d.read = .ok v → v.nesting = d.nesting
  | .null, _, h => by
      cases h
      rfl
  | .boolean _, _, h => by
      cases h
      rfl
  | .number x, _, h => by
      cases x <;> cases h
      rfl
  | .string x, _, h => by
      cases x <;> cases h
      rfl
  | .array items ending, v, h => by
      obtain ⟨vs, hItems, hEnd⟩ := bind_eq_ok_iff.mp h
      split at hEnd <;> cases hEnd
      exact congrArg Nat.succ (nestingItems_of_read items vs hItems)
  | .object members ending, v, h => by
      obtain ⟨ms, hMembers, hEnd⟩ := bind_eq_ok_iff.mp h
      split at hEnd <;> cases hEnd
      exact congrArg Nat.succ (nestingMembers_of_read members ms hMembers)
  | .broken _ _, _, h => by cases h

theorem nestingItems_of_read : ∀ (items : List Draft) (vs : List Json),
    readItems items = .ok vs → Json.nestingItems vs = nestingItems items
  | [], _, h => by
      cases h
      rfl
  | d :: items, _, h => by
      obtain ⟨v, hHead, h⟩ := bind_eq_ok_iff.mp h
      obtain ⟨vs, hTail, h⟩ := bind_eq_ok_iff.mp h
      cases h
      rw [Json.nestingItems, nestingItems, nesting_of_read d v hHead, nestingItems_of_read items vs hTail]

theorem nestingMembers_of_read : ∀ (members : List (Except Fault String × Draft))
    (ms : List (String × Json)), readMembers members = .ok ms →
      Json.nestingMembers ms = nestingMembers members
  | [], _, h => by
      cases h
      rfl
  | (name, d) :: members, _, h => by
      obtain ⟨_, -, h⟩ := bind_eq_ok_iff.mp h
      obtain ⟨v, hHead, h⟩ := bind_eq_ok_iff.mp h
      obtain ⟨ms, hTail, h⟩ := bind_eq_ok_iff.mp h
      cases h
      rw [Json.nestingMembers, nestingMembers, nesting_of_read d v hHead,
        nestingMembers_of_read members ms hTail]

end

theorem nesting_ofJson (v : Json) : (ofJson v).nesting = v.nesting :=
  (nesting_of_read (ofJson v) v (read_ofJson v)).symm

end Draft

end GrammarShapes.Json
