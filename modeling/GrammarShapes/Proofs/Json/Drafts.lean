import GrammarShapes.Json.Draft
import GrammarShapes.Proofs.Json.Tokens

set_option autoImplicit false

/-! # The draft of a text that was written

The machine takes the tokens of a value to the draft of the value. The draft is whole where there is room
for all arrays and objects; one that is nested too deep is broken at its place, and everything around it is
whole.
-/

namespace GrammarShapes.Json

def Draft.atDepth (n : Nat) (d : Draft) : Draft :=
  if n < nestingLimit then d else .broken .nestingTooDeep d.passed

mutual

def draftAt (n : Nat) : Json → Draft
  | .null => .null
  | .boolean b => .boolean b
  | .number x => .number (.ok x)
  | .string s => .string (.ok s)
  | .array items => .atDepth n (.array (draftItems (n + 1) items) .closed)
  | .object members => .atDepth n (.object (draftMembers (n + 1) members) .closed)

def draftItems (n : Nat) : List Json → List Draft
  | [] => []
  | v :: items => draftAt n v :: draftItems n items

def draftMembers (n : Nat) : List (String × Json) → List (Except Fault String × Draft)
  | [] => []
  | (name, v) :: members => (.ok name, draftAt n v) :: draftMembers n members

end

namespace Scan

theorem nested_eq_atDepth (d : Draft) (frames : List Frame) : nested d frames = d.atDepth frames.length := by
  simp only [nested, Draft.atDepth, hasRoom_iff]

theorem close_eq (d : Draft) (frames : List Frame) :
    close d frames = complete (d.atDepth frames.length) frames := by
  rw [close, nested_eq_atDepth]

theorem step_firstItem {t : Token} (frames : List Frame) (h : t ≠ .rightBracket) :
    step (.firstItem frames) t = startValue (.array [] :: frames) t := by
  cases t <;> first | rfl | exact absurd rfl h

theorem step_nextItem {t : Token} (items : List Draft) (frames : List Frame) (h : t ≠ .rightBracket) :
    step (.nextItem items frames) t = startValue (.array items :: frames) t := by
  cases t <;> first | rfl | exact absurd rfl h

mutual

/-- In a state that takes the first token of a value as the start of one, the tokens of a value complete
its draft. -/
theorem foldl_tokensOf : ∀ (v : Json) (s : Scan) (frames : List Frame),
    (∀ t, t ≠ .rightBracket → s.step t = startValue frames t) →
    (tokensOf v).foldl step s = complete (draftAt frames.length v) frames
  | .null, _, _, h => h .null nofun
  | .boolean b, _, _, h => h (.boolean b) nofun
  | .number n, _, _, h => h (.number (.ok n)) nofun
  | .string s, _, _, h => h (.string (.ok s)) nofun
  | .array [], s, frames, h => by
      rw [tokensOf, List.foldl_cons, h .leftBracket nofun]
      exact close_eq _ frames
  | .array (v :: items), s, frames, h => by
      rw [tokensOf, List.foldl_cons, h .leftBracket nofun, List.foldl_append, startValue,
        foldl_tokensOf v _ (.array [] :: frames) fun t ht => step_firstItem frames ht]
      exact foldl_itemTokens items [draftAt (frames.length + 1) v] frames
  | .object [], s, frames, h => by
      rw [tokensOf, List.foldl_cons, h .leftBrace nofun]
      exact close_eq _ frames
  | .object ((name, v) :: members), s, frames, h => by
      rw [tokensOf, List.foldl_cons, h .leftBrace nofun, List.foldl_cons, List.foldl_cons,
        List.foldl_append,
        foldl_tokensOf v _ (.object [] (.ok name) :: frames) fun t _ => rfl]
      exact foldl_memberTokens members [(.ok name, draftAt (frames.length + 1) v)] frames

theorem foldl_itemTokens : ∀ (items : List Json) (before : List Draft) (frames : List Frame),
    (itemTokens items).foldl step (.afterItem before frames) =
      complete (.atDepth frames.length
        (.array (before.reverse ++ draftItems (frames.length + 1) items) .closed)) frames
  | [], before, frames => by
      rw [draftItems, List.append_nil]
      exact close_eq _ frames
  | v :: items, before, frames => by
      rw [itemTokens, List.foldl_cons, List.foldl_append, step,
        foldl_tokensOf v _ (.array before :: frames) fun t ht => step_nextItem before frames ht]
      have hRest := foldl_itemTokens items (draftAt (frames.length + 1) v :: before) frames
      rw [List.reverse_cons, List.append_assoc] at hRest
      exact hRest

theorem foldl_memberTokens : ∀ (members : List (String × Json))
    (before : List (Except Fault String × Draft)) (frames : List Frame),
    (memberTokens members).foldl step (.afterMember before frames) =
      complete (.atDepth frames.length
        (.object (before.reverse ++ draftMembers (frames.length + 1) members) .closed)) frames
  | [], before, frames => by
      rw [draftMembers, List.append_nil]
      exact close_eq _ frames
  | (name, v) :: members, before, frames => by
      rw [memberTokens, List.foldl_cons, List.foldl_cons, List.foldl_cons, List.foldl_append,
        foldl_tokensOf v _ (.object before (.ok name) :: frames) fun t _ => rfl]
      have hRest := foldl_memberTokens members ((.ok name, draftAt (frames.length + 1) v) :: before) frames
      rw [List.reverse_cons, List.append_assoc] at hRest
      exact hRest

end

end Scan

theorem Document.ofText_toText {v : Json} (h : IsWhole v) (spacing : Spacing) :
    Document.ofText (Text.ofString (v.toText spacing)) = ⟨draftAt 0 v, false⟩ := by
  rw [Document.ofText, tokens_toText spacing h, Scan.foldl_tokensOf v _ [] fun _ _ => rfl]
  rfl

end GrammarShapes.Json
