import GrammarShapes.Json.Numeral
import GrammarShapes.Json.Writing

set_option autoImplicit false

/-! # Numerals that are written

A whole number of at most sixty-four bits is written with its digits, and reading the numeral gives the
number back, whatever follows it, as long as that cannot be part of a numeral.
-/

namespace GrammarShapes.Json

/-- Whether nothing at the head of the text can continue a numeral. -/
def Text.EndsNumeral (t : Text) : Prop :=
  ∀ x ∈ t.head?, digit? x = none ∧ x ≠ some '.' ∧ x ≠ some 'e' ∧ x ≠ some 'E'

def Number.IsWhole : Number → Prop
  | .integer n => -9223372036854775808 ≤ n ∧ n < 18446744073709551616
  | .binary64 _ => False

def decimalDigits (n : Nat) : List Nat :=
  (Nat.toDigits 10 n).map fun c => c.toNat - 48

theorem decimalDigits_of_lt_ten {n : Nat} (h : n < 10) : decimalDigits n = [n] := by
  rw [decimalDigits, Nat.toDigits_of_lt_base h, List.map_singleton, Nat.toNat_digitChar_sub_48_of_lt_ten h]

theorem decimalDigits_of_ten_le {n : Nat} (h : 10 ≤ n) :
    decimalDigits n = decimalDigits (n / 10) ++ [n % 10] := by
  have hLast : n % 10 < 10 := Nat.mod_lt n (by decide)
  rw [decimalDigits, Nat.toDigits_of_base_le (by decide) h, List.map_append, List.map_singleton,
    Nat.toNat_digitChar_sub_48_of_lt_ten hLast, decimalDigits]

theorem decimalDigits_ne_nil (n : Nat) : decimalDigits n ≠ [] := by
  rw [decimalDigits, ne_eq, List.map_eq_nil_iff]
  exact Nat.toDigits_ne_nil

theorem digitsValue_decimalDigits (n : Nat) : digitsValue (decimalDigits n) = n := by
  induction n using Nat.strongRecOn with
  | ind n ih =>
    by_cases h : n < 10
    · rw [decimalDigits_of_lt_ten h]
      simp [digitsValue]
    · have hPrefix := ih (n / 10) (by omega)
      rw [digitsValue] at hPrefix
      rw [decimalDigits_of_ten_le (by omega), digitsValue, List.foldl_append, hPrefix]
      simp only [List.foldl_cons, List.foldl_nil]
      omega

theorem head?_decimalDigits_ne_zero {n : Nat} (h : 0 < n) : (decimalDigits n).head? ≠ some 0 := by
  induction n using Nat.strongRecOn with
  | ind n ih =>
    by_cases hSmall : n < 10
    · rw [decimalDigits_of_lt_ten hSmall]
      simpa using Nat.ne_of_gt h
    · have hPrefix := ih (n / 10) (by omega) (by omega)
      obtain ⟨d, ds, hSplit⟩ := List.exists_cons_of_ne_nil (decimalDigits_ne_nil (n / 10))
      rw [decimalDigits_of_ten_le (by omega)]
      rw [hSplit] at hPrefix ⊢
      exact hPrefix

theorem digits_append {cs : List Char} {rest : Text} (hDigits : ∀ c ∈ cs, c.isDigit = true)
    (hRest : ∀ x ∈ rest.head?, digit? x = none) :
    digits (cs.map some ++ rest) = (cs.map fun c => c.toNat - 48, rest) := by
  induction cs with
  | nil =>
    cases rest with
    | nil => rfl
    | cons x rest => simp only [List.map_nil, List.nil_append, digits, hRest x rfl]
  | cons c cs ih =>
    obtain ⟨hHead, hTail⟩ := List.forall_mem_cons.mp hDigits
    have hDigit : digit? (some c) = some (c.toNat - 48) := by simp [digit?, hHead]
    simp only [List.map_cons, List.cons_append, digits, hDigit, ih hTail]

theorem readWhole_append {n : Nat} {rest : Text} (hRest : ∀ x ∈ rest.head?, digit? x = none) :
    readWhole ((Nat.toDigits 10 n).map some ++ rest) = .ok (decimalDigits n, rest) := by
  have hDigits : digits ((Nat.toDigits 10 n).map some ++ rest) = (decimalDigits n, rest) :=
    digits_append (fun c hc => Nat.isDigit_of_mem_toDigits (by decide) (by decide) hc) hRest
  rw [readWhole, hDigits]
  split
  · rename_i hNil
    exact absurd (congrArg Prod.fst hNil) (decimalDigits_ne_nil n)
  · rename_i d ds r hZero
    have hZero : decimalDigits n = 0 :: d :: ds := congrArg Prod.fst hZero
    rcases Nat.eq_zero_or_pos n with rfl | hPos
    · rw [decimalDigits_of_lt_ten (by decide)] at hZero
      cases hZero
    · exact absurd (congrArg List.head? hZero) (head?_decimalDigits_ne_zero hPos)
  · rename_i hPair
    rw [hPair]

theorem takeMinus_of_isDigit {c : Char} {rest : Text} (h : c.isDigit = true) :
    takeMinus (some c :: rest) = (false, some c :: rest) := by
  have hne : (some c : Option Char) ≠ some '-' := by
    intro hMinus
    cases hMinus
    exact absurd h (by decide)
  rw [takeMinus, if_neg hne]

theorem exists_digit_cons (n : Nat) : ∃ c cs, Nat.toDigits 10 n = c :: cs ∧ c.isDigit = true := by
  have hDigits : ∀ c ∈ Nat.toDigits 10 n, c.isDigit = true :=
    fun c hc => Nat.isDigit_of_mem_toDigits (by decide) (by decide) hc
  cases hSplit : Nat.toDigits 10 n with
  | nil => exact absurd hSplit Nat.toDigits_ne_nil
  | cons c cs => exact ⟨c, cs, rfl, hDigits c (hSplit ▸ List.mem_cons_self)⟩

theorem takeMinus_digits {n : Nat} {rest : Text} :
    takeMinus ((Nat.toDigits 10 n).map some ++ rest) = (false, (Nat.toDigits 10 n).map some ++ rest) := by
  obtain ⟨c, cs, hSplit, hDigit⟩ := exists_digit_cons n
  rw [hSplit]
  exact takeMinus_of_isDigit hDigit

theorem readFraction_of_endsNumeral {t : Text} (h : t.EndsNumeral) : readFraction t = .ok (none, t) := by
  cases t with
  | nil => rfl
  | cons x rest => rw [readFraction, if_neg (h x rfl).2.1]

theorem readPower_of_endsNumeral {t : Text} (h : t.EndsNumeral) : readPower t = .ok (none, t) := by
  cases t with
  | nil => rfl
  | cons x rest => simp [readPower, (h x rfl).2.2]

theorem readNumeral_numeral (n : Int) {rest : Text} (h : rest.EndsNumeral) :
    readNumeral ((numeral (.integer n)).map some ++ rest) =
      .ok (⟨decide (n < 0), decimalDigits n.natAbs, none, none⟩, rest) := by
  have hWhole := readWhole_append (n := n.natAbs) fun x hx => (h x hx).1
  have hMinus : takeMinus ((numeral (.integer n)).map some ++ rest) =
      (decide (n < 0), (Nat.toDigits 10 n.natAbs).map some ++ rest) := by
    by_cases hNegative : n < 0
    · simp [numeral, hNegative, takeMinus]
    · rw [numeral, if_neg hNegative, takeMinus_digits, decide_eq_false hNegative]
  simp only [readNumeral, hMinus, hWhole, readFraction_of_endsNumeral h, readPower_of_endsNumeral h]

theorem le_foldl_digits (ds : List Nat) (n : Nat) : n ≤ ds.foldl (fun n d => n * 10 + d) n := by
  induction ds generalizing n with
  | nil => exact Nat.le_refl n
  | cons d ds ih => exact Nat.le_trans (by omega) (ih (n * 10 + d))

theorem absorb_of_lt {ds : List Nat} {n : Nat}
    (h : ds.foldl (fun n d => n * 10 + d) n < 18446744073709551616) :
    absorb n ds = (ds.foldl (fun n d => n * 10 + d) n, []) := by
  induction ds generalizing n with
  | nil => rfl
  | cons d ds ih =>
    have hHead : n * 10 + d < 18446744073709551616 := Nat.lt_of_le_of_lt (le_foldl_digits ds _) h
    rw [absorb, if_pos hHead]
    exact ih h

theorem value_decimalDigits {n : Int} (h : (Number.integer n).IsWhole) :
    Numeral.value ⟨decide (n < 0), decimalDigits n.natAbs, none, none⟩ = .ok (.integer n) := by
  obtain ⟨hLow, hHigh⟩ := h
  have hValue : (decimalDigits n.natAbs).foldl (fun n d => n * 10 + d) 0 = n.natAbs :=
    digitsValue_decimalDigits n.natAbs
  have hAbsorb : absorb 0 (decimalDigits n.natAbs) = (n.natAbs, []) := by
    rw [absorb_of_lt (by rw [hValue]; omega), hValue]
  simp only [Numeral.value, hAbsorb]
  by_cases hNegative : n < 0
  · have hRange : (0 < n.natAbs && n.natAbs ≤ 9223372036854775808) = true := by
      simp only [Bool.and_eq_true, decide_eq_true_eq]
      omega
    simp only [hNegative, decide_true, Bool.not_true, Bool.false_eq_true, if_false, hRange, if_true]
    have hNeg : -(n.natAbs : Int) = n := by omega
    rw [hNeg]
  · simp only [hNegative, decide_false, Bool.not_false, if_true]
    have hNat : (n.natAbs : Int) = n := by omega
    rw [hNat]

end GrammarShapes.Json
