import GrammarShapes.Json.Token
import GrammarShapes.Json.Writing

set_option autoImplicit false

/-! # Strings that are written

Reading takes the escape of every character back to the character, so that a string that is written gives
itself, whatever follows its closing quote. The scan of a written string never has half of a pair pending
and meets no fault: all that it changes is the list of characters.
-/

namespace GrammarShapes.Json

variable {chars : List Char} {rest : Text}

theorem readString_plain {c : Char} (hQuote : c ≠ '"') (hBackslash : c ≠ '\\') (hControl : ¬ c.toNat < 0x20) :
    readString { chars } (some c :: rest) = readString { chars := c :: chars } rest := by
  rw [readString.eq_def]
  simp only [hQuote, hBackslash, hControl, if_false]
  rfl

theorem readString_letter {e c : Char} (hLetter : escaped? (some e) = some c) :
    readString { chars } (some '\\' :: some e :: rest) = readString { chars := c :: chars } rest := by
  have hUnit : (some e : Option Char) ≠ some 'u' := by
    intro hSame
    rw [hSame] at hLetter
    cases hLetter
  rw [readString.eq_def]
  simp only [hUnit, hLetter, Char.reduceEq, if_false, if_true]
  rfl

theorem hexDigit?_digitChar : ∀ n, n < 16 → hexDigit? (some (Nat.digitChar n)) = some n := by
  decide

theorem readString_unit {c : Char} (h : c.toNat < 0x20) :
    readString { chars } (some '\\' :: some 'u' :: some '0' :: some '0' ::
      some (Nat.digitChar (c.toNat / 16)) :: some (Nat.digitChar (c.toNat % 16)) :: rest) =
        readString { chars := c :: chars } rest := by
  have hZero : hexDigit? (some '0') = some 0 := by decide
  have hHigh := hexDigit?_digitChar (c.toNat / 16) (by omega)
  have hLow := hexDigit?_digitChar (c.toNat % 16) (by omega)
  have hUnit : hexUnit? (some '0') (some '0') (some (Nat.digitChar (c.toNat / 16)))
      (some (Nat.digitChar (c.toNat % 16))) = some c.toNat := by
    simp only [hexUnit?, hZero, hHigh, hLow, Option.pure_def, Option.bind_eq_bind, Option.bind_some]
    congr 1
    omega
  have hPush : StringScan.pushUnit { chars } c.toNat = { chars := c :: chars } := by
    have hNotLow : ¬ 0xdc00 ≤ c.toNat := by omega
    have hNotHigh : ¬ 0xd800 ≤ c.toNat := by omega
    simp [StringScan.pushUnit, StringScan.push, hNotLow, hNotHigh]
  simp only [readString, Char.reduceEq, if_false, if_true, hUnit, hPush]

theorem readString_escapedChar (c : Char) :
    readString { chars } ((escapedChar c).map some ++ rest) = readString { chars := c :: chars } rest := by
  unfold escapedChar
  split
  · subst_vars
    exact readString_letter (by decide)
  split
  · subst_vars
    exact readString_letter (by decide)
  split
  · subst_vars
    exact readString_letter (by decide)
  split
  · subst_vars
    exact readString_letter (by decide)
  split
  · subst_vars
    exact readString_letter (by decide)
  split
  · subst_vars
    exact readString_letter (by decide)
  split
  · subst_vars
    exact readString_letter (by decide)
  split
  · rename_i hControl
    exact readString_unit hControl
  · rename_i hQuote hBackslash _ _ _ _ _ hControl
    exact readString_plain hQuote hBackslash hControl

theorem readString_escaped (cs : List Char) :
    readString { chars } ((cs.flatMap escapedChar).map some ++ some '"' :: rest) =
      .ok (.ok (String.ofList (chars.reverse ++ cs)), rest) := by
  induction cs generalizing chars with
  | nil =>
    rw [List.append_nil, List.flatMap_nil, List.map_nil, List.nil_append, readString.eq_def]
    rfl
  | cons c cs ih =>
    rw [List.flatMap_cons, List.map_append, List.append_assoc, readString_escapedChar, ih]
    simp

/-- A string that is written is read back from behind its opening quote. -/
theorem readString_written (s : String) :
    readString {} ((s.toList.flatMap escapedChar).map some ++ some '"' :: rest) = .ok (.ok s, rest) := by
  have hRead : readString { chars := [] } ((s.toList.flatMap escapedChar).map some ++ some '"' :: rest) =
      .ok (.ok (String.ofList ([].reverse ++ s.toList)), rest) := readString_escaped s.toList
  simpa using hRead

end GrammarShapes.Json
