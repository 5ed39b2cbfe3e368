set_option autoImplicit false

/-! # The order of texts

Texts are ordered by their characters, and characters by their code points. UTF-8 keeps that order: where
two texts part, the bytes of the smaller character are smaller, whatever follows them.
-/

namespace GrammarShapes.Text

def utf8 (s : String) : List UInt8 :=
  s.toUTF8.data.toList

theorem utf8_eq_flatMap (s : String) : utf8 s = s.toList.flatMap String.utf8EncodeChar := by
  conv => lhs; rw [← String.ofList_toList (s := s)]
  exact List.toList_data_toByteArray

theorem toNat_lt_of_char (c : Char) : c.val.toNat < 1114112 := by
  rcases c.valid with h | ⟨-, h⟩
  · exact Nat.lt_trans h (by decide)
  · exact h

theorem continuation_mod (n : Nat) : (n % 64 + 128) % 256 = n % 64 + 128 := by
  omega

theorem leading_mod {n : Nat} (h : n < 1114112) : (n / 262144 % 8 + 240) % 256 = n / 262144 + 240 := by
  omega

/-- The first byte of a character tells how many bytes it has, and more bytes stand for greater code points;
among as many bytes the code point is read from them as from digits. -/
theorem utf8EncodeChar_append_lt {c d : Char} (h : c < d) (rest rest' : List UInt8) :
    String.utf8EncodeChar c ++ rest < String.utf8EncodeChar d ++ rest' := by
  have hLt : c.val.toNat < d.val.toNat := UInt32.lt_iff_toNat_lt.mp h
  have hMax := toNat_lt_of_char d
  clear h
  simp only [String.utf8EncodeChar]
  repeat' split
  all_goals first
    | omega
    | simp only [List.cons_append, List.nil_append, List.cons_lt_cons_iff, UInt8.lt_iff_toNat_lt,
        ← UInt8.toNat_inj, UInt8.toNat_ofNat', Nat.reducePow]
  -- one byte on the left, or more bytes on the right: the first byte decides
  all_goals try exact Or.inl (by omega)
  case isFalse.isTrue.isFalse.isTrue =>
    refine Or.imp_right (And.imp_right Or.inl) ?_
    omega
  case isFalse.isFalse.isTrue.isFalse.isFalse.isTrue =>
    refine Or.imp_right (And.imp_right (Or.imp_right (And.imp_right Or.inl))) ?_
    omega
  case isFalse.isFalse.isFalse.isFalse.isFalse.isFalse =>
    refine Or.imp_right (And.imp_right (Or.imp_right (And.imp_right
      (Or.imp_right (And.imp_right Or.inl))))) ?_
    simp only [leading_mod hMax, leading_mod (Nat.lt_trans hLt hMax), continuation_mod,
      Nat.add_lt_add_iff_right, Nat.add_right_cancel_iff]
    omega

theorem flatMap_utf8EncodeChar_lt {xs ys : List Char} (h : xs < ys) :
    xs.flatMap String.utf8EncodeChar < ys.flatMap String.utf8EncodeChar := by
  induction xs generalizing ys with
  | nil =>
    cases ys with
    | nil => exact absurd h (List.lt_irrefl [])
    | cons d ys =>
      rw [List.flatMap_cons, List.flatMap_nil]
      obtain ⟨b, bs, hBytes⟩ := List.exists_cons_of_ne_nil (String.utf8EncodeChar_ne_nil (c := d))
      rw [hBytes, List.cons_append]
      exact List.nil_lt_cons b _
  | cons c xs ih =>
    cases ys with
    | nil => exact absurd h (List.not_lt_nil _)
    | cons d ys =>
      rw [List.flatMap_cons, List.flatMap_cons]
      rcases List.cons_lt_cons_iff.mp h with hHead | ⟨rfl, hTail⟩
      · exact utf8EncodeChar_append_lt hHead _ _
      · exact List.append_left_lt (ih hTail)

theorem utf8_lt_of_lt {s t : String} (h : s < t) : utf8 s < utf8 t := by
  rw [utf8_eq_flatMap, utf8_eq_flatMap]
  exact flatMap_utf8EncodeChar_lt h

end GrammarShapes.Text
