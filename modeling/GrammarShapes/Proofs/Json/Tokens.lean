import GrammarShapes.Proofs.Json.Numerals
import GrammarShapes.Proofs.Json.Strings

set_option autoImplicit false

/-! # The tokens of a value

A value that is written is cut into the tokens that `tokensOf` lists, whether it is written compactly or
indented: what stands between the parts are blanks. The only token whose end depends on what follows is a
numeral, so that the text behind a value must not continue one.
-/

namespace GrammarShapes.Json

inductive IsWhole : Json → Prop where
  | null : IsWhole .null
  | boolean (b : Bool) : IsWhole (.boolean b)
  | number {n : Number} (hNumber : n.IsWhole) : IsWhole (.number n)
  | string (s : String) : IsWhole (.string s)
  | array {items : List Json} (hItems : ∀ v ∈ items, IsWhole v) : IsWhole (.array items)
  | object {members : List (String × Json)} (hMembers : ∀ m ∈ members, IsWhole m.2) :
      IsWhole (.object members)

mutual

def tokensOf : Json → List Token
  | .null => [.null]
  | .boolean b => [.boolean b]
  | .number n => [.number (.ok n)]
  | .string s => [.string (.ok s)]
  | .array [] => [.leftBracket, .rightBracket]
  | .array (v :: items) => .leftBracket :: (tokensOf v ++ itemTokens items)
  | .object [] => [.leftBrace, .rightBrace]
  | .object ((name, v) :: members) =>
      .leftBrace :: .string (.ok name) :: .colon :: (tokensOf v ++ memberTokens members)

def itemTokens : List Json → List Token
  | [] => [.rightBracket]
  | v :: items => .comma :: (tokensOf v ++ itemTokens items)

def memberTokens : List (String × Json) → List Token
  | [] => [.rightBrace]
  | (name, v) :: members =>
      .comma :: .string (.ok name) :: .colon :: (tokensOf v ++ memberTokens members)

end

section Pieces

variable {rest : Text}

theorem tokens_blank {c : Char} (h : isBlank c = true) : tokens (some c :: rest) = tokens rest := by
  rw [tokens, if_pos h]

def signs : List (Char × Token) :=
  [('\x7b', .leftBrace), ('\x7d', .rightBrace), ('[', .leftBracket), (']', .rightBracket), (',', .comma),
    (':', .colon)]

theorem tokens_sign {c : Char} {token : Token} (h : (c, token) ∈ signs) :
    tokens (some c :: rest) = token :: tokens rest := by
  rw [tokens]
  simp only [signs, List.mem_cons, Prod.mk.injEq, List.not_mem_nil, or_false] at h
  rcases h with ⟨rfl, rfl⟩ | ⟨rfl, rfl⟩ | ⟨rfl, rfl⟩ | ⟨rfl, rfl⟩ | ⟨rfl, rfl⟩ | ⟨rfl, rfl⟩ <;> rfl

theorem tokens_leftBracket : tokens (some '[' :: rest) = .leftBracket :: tokens rest :=
  tokens_sign (by simp [signs])

theorem tokens_rightBracket : tokens (some ']' :: rest) = .rightBracket :: tokens rest :=
  tokens_sign (by simp [signs])

theorem tokens_leftBrace : tokens (some '\x7b' :: rest) = .leftBrace :: tokens rest :=
  tokens_sign (by simp [signs])

theorem tokens_rightBrace : tokens (some '\x7d' :: rest) = .rightBrace :: tokens rest :=
  tokens_sign (by simp [signs])

theorem tokens_comma : tokens (some ',' :: rest) = .comma :: tokens rest :=
  tokens_sign (by simp [signs])

theorem tokens_colon : tokens (some ':' :: rest) = .colon :: tokens rest :=
  tokens_sign (by simp [signs])

/-- The tokens of fixed words, each with its first character and the others. -/
def fixedWords : List (Char × List Char × Token) :=
  [('n', ['u', 'l', 'l'], .null), ('t', ['r', 'u', 'e'], .boolean true),
    ('f', ['a', 'l', 's', 'e'], .boolean false)]

theorem tokens_fixedWord {c : Char} {others : List Char} {token : Token}
    (h : (c, others, token) ∈ fixedWords) :
    tokens (some c :: (others.map some ++ rest)) = token :: tokens rest := by
  rw [tokens]
  simp only [fixedWords, List.mem_cons, Prod.mk.injEq, List.not_mem_nil, or_false] at h
  rcases h with ⟨rfl, rfl, rfl⟩ | ⟨rfl, rfl, rfl⟩ | ⟨rfl, rfl, rfl⟩ <;> rfl

theorem tokens_null :
    tokens (some 'n' :: some 'u' :: some 'l' :: some 'l' :: rest) = .null :: tokens rest :=
  tokens_fixedWord (.head _)

theorem tokens_true :
    tokens (some 't' :: some 'r' :: some 'u' :: some 'e' :: rest) = .boolean true :: tokens rest :=
  tokens_fixedWord (.tail _ (.head _))

theorem tokens_false :
    tokens (some 'f' :: some 'a' :: some 'l' :: some 's' :: some 'e' :: rest) =
      .boolean false :: tokens rest :=
  tokens_fixedWord (.tail _ (.tail _ (.head _)))

theorem tokens_quoted (s : String) :
    tokens (some '"' :: ((s.toList.flatMap escapedChar).map some ++ some '"' :: rest)) =
      .string (.ok s) :: tokens rest := by
  rw [tokens]
  simp only [isBlank, Char.reduceEq, decide_false, Bool.or_self, Bool.false_eq_true, if_false, if_true]
  split
  · rename_i hRead
    rw [readString_written] at hRead
    cases hRead
    rfl
  · rename_i hRead
    rw [readString_written] at hRead
    cases hRead

theorem tokens_of_readNumeral {c : Char} {x : Numeral} {r : Text} (hHead : c = '-' ∨ c.isDigit = true)
    (hRead : readNumeral (some c :: rest) = .ok (x, r)) :
    tokens (some c :: rest) = .number x.value :: tokens r := by
  have hOther : ∀ other : Char, other ≠ '-' → other.isDigit = false → c ≠ other := by
    rintro other hMinus hDigit rfl
    rcases hHead with rfl | hHead
    · exact hMinus rfl
    · rw [hDigit] at hHead
      cases hHead
  have hNumeral : (decide (c = '-') || c.isDigit) = true := by
    rcases hHead with rfl | hHead
    · rfl
    · rw [hHead, Bool.or_true]
  rw [tokens]
  simp only [isBlank, hOther ' ' (by decide) (by decide), hOther '\n' (by decide) (by decide),
    hOther '\r' (by decide) (by decide), hOther '\t' (by decide) (by decide),
    hOther '\x7b' (by decide) (by decide), hOther '\x7d' (by decide) (by decide),
    hOther '[' (by decide) (by decide), hOther ']' (by decide) (by decide),
    hOther ',' (by decide) (by decide), hOther ':' (by decide) (by decide),
    hOther '"' (by decide) (by decide), decide_false, Bool.or_self, Bool.false_eq_true, if_false,
    hNumeral, if_true]
  split
  · rename_i hSame
    rw [hRead] at hSame
    cases hSame
    rfl
  · rename_i hSame
    rw [hRead] at hSame
    cases hSame

theorem head_numeral (n : Int) :
    ∃ c cs, numeral (.integer n) = c :: cs ∧ (c = '-' ∨ c.isDigit = true) := by
  rw [numeral]
  split
  · exact ⟨'-', _, rfl, Or.inl rfl⟩
  · obtain ⟨c, cs, hSplit, hDigit⟩ := exists_digit_cons n.natAbs
    exact ⟨c, cs, hSplit, Or.inr hDigit⟩

theorem tokens_numeral {n : Number} (hNumber : n.IsWhole) (hRest : rest.EndsNumeral) :
    tokens ((numeral n).map some ++ rest) = .number (.ok n) :: tokens rest := by
  cases n with
  | binary64 bits => cases hNumber
  | integer n =>
    have hRead := readNumeral_numeral n hRest
    obtain ⟨c, cs, hSplit, hHead⟩ := head_numeral n
    rw [hSplit] at hRead ⊢
    rw [List.map_cons, List.cons_append] at hRead ⊢
    rw [tokens_of_readNumeral hHead hRead, value_decimalDigits hNumber]

end Pieces

section Written

variable (spacing : Spacing)

theorem Text.endsNumeral_cons {c : Char} {rest : Text} (hDigit : c.isDigit = false)
    (hOther : c ≠ '.' ∧ c ≠ 'e' ∧ c ≠ 'E') : Text.EndsNumeral (some c :: rest) := by
  intro x hx
  cases hx
  simpa [digit?, hDigit] using hOther

theorem endsNumeral_lineBreak {c : Char} (level : Nat) (rest : List Char)
    (hDigit : c.isDigit = false) (hOther : c ≠ '.' ∧ c ≠ 'e' ∧ c ≠ 'E') :
    Text.EndsNumeral ((spacing.lineBreak level (c :: rest)).map some) := by
  cases spacing with
  | compact => exact Text.endsNumeral_cons hDigit hOther
  | indented => exact Text.endsNumeral_cons (by decide) (by decide)

theorem endsNumeral_writeItems (level : Nat) (rest : List Char) (items : List Json) :
    Text.EndsNumeral ((writeItems spacing level rest items).map some) := by
  cases items with
  | nil => exact endsNumeral_lineBreak spacing level rest (by decide) (by decide)
  | cons v items => exact Text.endsNumeral_cons (by decide) (by decide)

theorem endsNumeral_writeMembers (level : Nat) (rest : List Char) (members : List (String × Json)) :
    Text.EndsNumeral ((writeMembers spacing level rest members).map some) := by
  cases members with
  | nil => exact endsNumeral_lineBreak spacing level rest (by decide) (by decide)
  | cons m members => exact Text.endsNumeral_cons (by decide) (by decide)

theorem tokens_blanks (n : Nat) (rest : Text) :
    tokens ((List.replicate n ' ').map some ++ rest) = tokens rest := by
  induction n with
  | zero => rfl
  | succ n ih => rw [List.replicate_succ, List.map_cons, List.cons_append, tokens_blank (by decide), ih]

theorem tokens_lineBreak (level : Nat) (rest : List Char) :
    tokens ((spacing.lineBreak level rest).map some) = tokens (rest.map some) := by
  cases spacing with
  | compact => rfl
  | indented =>
    rw [Spacing.lineBreak, List.map_cons, tokens_blank (by decide), List.map_append, tokens_blanks]

theorem tokens_spacedColon (rest : List Char) :
    tokens ((spacing.colon rest).map some) = .colon :: tokens (rest.map some) := by
  cases spacing with
  | compact => rw [Spacing.colon, List.map_cons, tokens_colon]
  | indented =>
    rw [Spacing.colon, List.map_cons, List.map_cons, tokens_colon, tokens_blank (by decide)]

theorem tokens_writeString (s : String) (rest : List Char) :
    tokens ((writeString s rest).map some) = .string (.ok s) :: tokens (rest.map some) := by
  rw [writeString, List.map_cons, List.map_append, List.map_cons, tokens_quoted]

mutual

/-- A value that is written before `rest` gives its own tokens and then those of `rest`. -/
theorem tokens_write : ∀ (v : Json) (level : Nat) (rest : List Char), IsWhole v →
    Text.EndsNumeral (rest.map some) →
    tokens ((v.write spacing level rest).map some) = tokensOf v ++ tokens (rest.map some)
  | .null, _, _, _, _ => tokens_null
  | .boolean true, _, _, _, _ => tokens_true
  | .boolean false, _, _, _, _ => tokens_false
  | .number n, _, rest, h, hRest => by
      cases h with
      | number hNumber =>
        rw [write, List.map_append, tokens_numeral hNumber hRest]
        rfl
  | .string s, _, rest, _, _ => tokens_writeString s rest
  | .array [], _, _, _, _ => by
      rw [write, List.map_cons, List.map_cons, tokens_leftBracket, tokens_rightBracket]
      rfl
  | .array (v :: items), level, rest, h, _ => by
      cases h with
      | array hItems =>
        obtain ⟨hHead, hTail⟩ := List.forall_mem_cons.mp hItems
        rw [write, List.map_cons, tokens_leftBracket, tokens_lineBreak,
          tokens_write v _ _ hHead (endsNumeral_writeItems spacing level rest items),
          tokens_writeItems items level rest hTail, tokensOf, List.cons_append, List.append_assoc]
  | .object [], _, _, _, _ => by
      rw [write, List.map_cons, List.map_cons, tokens_leftBrace, tokens_rightBrace]
      rfl
  | .object ((name, v) :: members), level, rest, h, _ => by
      cases h with
      | object hMembers =>
        obtain ⟨hHead, hTail⟩ := List.forall_mem_cons.mp hMembers
        rw [write, List.map_cons, tokens_leftBrace, tokens_lineBreak, tokens_writeString,
          tokens_spacedColon,
          tokens_write v _ _ hHead (endsNumeral_writeMembers spacing level rest members),
          tokens_writeMembers members level rest hTail, tokensOf]
        simp only [List.cons_append, List.append_assoc]

theorem tokens_writeItems : ∀ (items : List Json) (level : Nat) (rest : List Char),
    (∀ v ∈ items, IsWhole v) →
    tokens ((writeItems spacing level rest items).map some) = itemTokens items ++ tokens (rest.map some)
  | [], level, rest, _ => by
      rw [writeItems, tokens_lineBreak, List.map_cons, tokens_rightBracket]
      rfl
  | v :: items, level, rest, h => by
      obtain ⟨hHead, hTail⟩ := List.forall_mem_cons.mp h
      rw [writeItems, List.map_cons, tokens_comma, tokens_lineBreak,
        tokens_write v _ _ hHead (endsNumeral_writeItems spacing level rest items),
        tokens_writeItems items level rest hTail, itemTokens, List.cons_append, List.append_assoc]

theorem tokens_writeMembers : ∀ (members : List (String × Json)) (level : Nat) (rest : List Char),
    (∀ m ∈ members, IsWhole m.2) →
    tokens ((writeMembers spacing level rest members).map some) =
      memberTokens members ++ tokens (rest.map some)
  | [], level, rest, _ => by
      rw [writeMembers, tokens_lineBreak, List.map_cons, tokens_rightBrace]
      rfl
  | (name, v) :: members, level, rest, h => by
      obtain ⟨hHead, hTail⟩ := List.forall_mem_cons.mp h
      rw [writeMembers, List.map_cons, tokens_comma, tokens_lineBreak, tokens_writeString,
        tokens_spacedColon,
        tokens_write v _ _ hHead (endsNumeral_writeMembers spacing level rest members),
        tokens_writeMembers members level rest hTail, memberTokens]
      simp only [List.cons_append, List.append_assoc]

end

theorem tokens_toText {v : Json} (h : IsWhole v) :
    tokens (Text.ofString (v.toText spacing)) = tokensOf v := by
  have hEnd : Text.EndsNumeral (([] : List Char).map some) := fun x hx => by cases hx
  have hTokens := tokens_write spacing v 0 [] h hEnd
  rw [Text.ofString, toText, String.toList_ofList, hTokens, List.map_nil, tokens, List.append_nil]

end Written

end GrammarShapes.Json
