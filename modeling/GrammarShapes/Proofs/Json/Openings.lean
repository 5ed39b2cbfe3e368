import GrammarShapes.Proofs.Json.Tokens

set_option autoImplicit false

/-! # Arrays and objects that are open at once

How many arrays and objects are open in a row of tokens changes by one at each bracket and brace. In the
text of a value the greatest such number is the nesting of the value.
-/

namespace GrammarShapes.Json

/-- How many arrays and objects are open behind a token, where `n` are open before it. -/
def Token.openBehind (n : Nat) : Token → Nat
  | .leftBracket => n + 1
  | .leftBrace => n + 1
  | .rightBracket => n - 1
  | .rightBrace => n - 1
  | _ => n

/-- The greatest number of arrays and objects that are open at once, where `n` are open before. -/
def mostOpen (n : Nat) : List Token → Nat
  | [] => n
  | t :: ts => max n (mostOpen (t.openBehind n) ts)

def Text.mostOpen (t : Text) : Nat :=
  Json.mostOpen 0 (tokens t)

theorem le_mostOpen (n : Nat) (ts : List Token) : n ≤ mostOpen n ts := by
  cases ts with
  | nil => exact Nat.le_refl n
  | cons t ts => exact Nat.le_max_left _ _

mutual

theorem mostOpen_tokensOf : ∀ (v : Json) (n : Nat) (ts : List Token),
    mostOpen n (tokensOf v ++ ts) = max (n + v.nesting) (mostOpen n ts)
  | .null, n, ts => rfl
  | .boolean _, n, ts => rfl
  | .number _, n, ts => rfl
  | .string _, n, ts => rfl
  | .array [], n, ts => by
      have hLe := le_mostOpen n ts
      simp only [tokensOf, List.cons_append, List.nil_append, mostOpen, Token.openBehind, nesting,
        nestingItems, Nat.add_sub_cancel]
      omega
  | .array (v :: items), n, ts => by
      have hLe := le_mostOpen n ts
      simp only [tokensOf, List.cons_append, List.append_assoc, mostOpen, Token.openBehind, nesting,
        nestingItems, mostOpen_tokensOf v, mostOpen_itemTokens items]
      omega
  | .object [], n, ts => by
      have hLe := le_mostOpen n ts
      simp only [tokensOf, List.cons_append, List.nil_append, mostOpen, Token.openBehind, nesting,
        nestingMembers, Nat.add_sub_cancel]
      omega
  | .object ((name, v) :: members), n, ts => by
      have hLe := le_mostOpen n ts
      simp only [tokensOf, List.cons_append, List.append_assoc, mostOpen, Token.openBehind, nesting,
        nestingMembers, mostOpen_tokensOf v, mostOpen_memberTokens members]
      omega

theorem mostOpen_itemTokens : ∀ (items : List Json) (n : Nat) (ts : List Token),
    mostOpen (n + 1) (itemTokens items ++ ts) = max (n + 1 + nestingItems items) (mostOpen n ts)
  | [], n, ts => rfl
  | v :: items, n, ts => by
      simp only [itemTokens, List.cons_append, List.append_assoc, mostOpen, Token.openBehind,
        nestingItems, mostOpen_tokensOf v, mostOpen_itemTokens items]
      omega

theorem mostOpen_memberTokens : ∀ (members : List (String × Json)) (n : Nat) (ts : List Token),
    mostOpen (n + 1) (memberTokens members ++ ts) =
      max (n + 1 + nestingMembers members) (mostOpen n ts)
  | [], n, ts => rfl
  | (name, v) :: members, n, ts => by
      simp only [memberTokens, List.cons_append, List.append_assoc, mostOpen, Token.openBehind,
        nestingMembers, mostOpen_tokensOf v, mostOpen_memberTokens members]
      omega

end

/-- In the text of a value as many arrays and objects are open at once as the value is nested deep. -/
theorem mostOpen_toText {v : Json} (h : IsWhole v) (spacing : Spacing) :
    (Text.ofString (v.toText spacing)).mostOpen = v.nesting := by
  have hTokens := mostOpen_tokensOf v 0 []
  rw [List.append_nil] at hTokens
  rw [Text.mostOpen, tokens_toText spacing h, hTokens, mostOpen]
  omega

end GrammarShapes.Json
