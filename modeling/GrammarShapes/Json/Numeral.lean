import GrammarShapes.Json.Basic
import GrammarShapes.Json.Fault
import GrammarShapes.Json.Text

set_option autoImplicit false

/-! # Numerals

A numeral is a sign, whole digits, and optional fraction and power. Its value is exact when it is a whole
number of at most sixty-four bits. Every other numeral denotes a binary64 number, computed from as many
leading digits as fit sixty-four bits by scaling with a power of ten; too great a number is a fault.
-/

namespace GrammarShapes.Json

structure Numeral where
  negative : Bool
  whole : List Nat
  fraction : Option (List Nat)
  /-- Whether the power is negative, and its digits. -/
  power : Option (Bool × List Nat)

/-- Appends digits to a significand as long as it stays below `2 ^ 64`; the digits left over follow. -/
def absorb (significand : Nat) : List Nat → Nat × List Nat
  | [] => (significand, [])
  | d :: ds =>
      if significand * 10 + d < 18446744073709551616 then absorb (significand * 10 + d) ds
      else (significand, d :: ds)

/-- The product `f * 10 ^ e`, where a power below `10 ^ (-308)` is applied in steps. -/
def scaleByTen (f : Float) (e : Int) : Except Fault Float :=
  if 0 ≤ e then
    if e ≤ 308 then
      let product := f * Float.ofScientific 1 false e.toNat
      if product.isInf then .error .numberOutOfRange else .ok product
    else if f == 0 then .ok f else .error .numberOutOfRange
  else if _h : -308 ≤ e then .ok (f / Float.ofScientific 1 false (-e).toNat)
  else if f == 0 then .ok f
  else scaleByTen (f / Float.ofScientific 1 false 308) (e + 308)
termination_by e.natAbs
decreasing_by omega

def signed (negative : Bool) (f : Float) : Json.Number :=
  .binary64 (if negative then (-f).toBits else f.toBits)

def scaled (negative : Bool) (significand : Nat) (exponent : Int) : Except Fault Json.Number :=
  (scaleByTen significand.toUInt64.toFloat exponent).map (signed negative)

def digitsValue (ds : List Nat) : Nat :=
  ds.foldl (fun n d => n * 10 + d) 0

def Numeral.value (x : Numeral) : Except Fault Json.Number :=
  let (significand, left) := absorb 0 x.whole
  match x.fraction, x.power, left with
  | none, none, [] =>
      if !x.negative then .ok (.integer significand)
      else if 0 < significand && significand ≤ 9223372036854775808 then .ok (.integer (-(significand : Int)))
      else .ok (signed true significand.toUInt64.toFloat)
  | fraction, power, left =>
      let (full, unread) := absorb significand (fraction.getD [])
      let exponent : Int := left.length - ((fraction.getD []).length - unread.length : Nat)
      match power with
      | none => scaled x.negative full exponent
      | some (down, ds) =>
          if digitsValue ds < 2147483648 then
            scaled x.negative full
              (if down then exponent - digitsValue ds else exponent + digitsValue ds)
          else if full ≠ 0 && !down then .error .numberOutOfRange
          else .ok (signed x.negative 0)

/-- The fault of a numeral that breaks off: a value was being read, or the text is passed over. -/
def numeralEnd : Fault × Fault :=
  (.endInValue, .invalidNumber)

def invalidNumeral : Fault × Fault :=
  (.invalidNumber, .invalidNumber)

def brokenNumeral (t : Text) : Fault × Fault :=
  if t.isEmpty then numeralEnd else invalidNumeral

def takeMinus : Text → Bool × Text
  | x :: rest => if x = some '-' then (true, rest) else (false, x :: rest)
  | [] => (false, [])

/-- Takes a sign off the head of a text: whether it is a minus, and the rest. -/
def takeSign : Text → Bool × Text
  | x :: rest => if x = some '+' then (false, rest) else takeMinus (x :: rest)
  | [] => (false, [])

/-- Reads the whole digits of a numeral: a zero stands alone. -/
def readWhole (t : Text) : Except (Fault × Fault) (List Nat × Text) :=
  match digits t with
  | ([], r) => .error (brokenNumeral r)
  | (0 :: _ :: _, _) => .error invalidNumeral
  | (ds, r) => .ok (ds, r)

def readFraction : Text → Except (Fault × Fault) (Option (List Nat) × Text)
  | [] => .ok (none, [])
  | x :: rest =>
      if x = some '.' then
        match digits rest with
        | ([], r) => .error (brokenNumeral r)
        | (ds, r) => .ok (some ds, r)
      else .ok (none, x :: rest)

def readPower : Text → Except (Fault × Fault) (Option (Bool × List Nat) × Text)
  | [] => .ok (none, [])
  | x :: rest =>
      if x = some 'e' || x = some 'E' then
        match digits (takeSign rest).2 with
        | ([], r) => .error (brokenNumeral r)
        | (ds, r) => .ok (some ((takeSign rest).1, ds), r)
      else .ok (none, x :: rest)

/-- Reads a numeral. A fault is given twice: as it shows when the number is asked for, and as it shows
when the numeral is passed over. -/
def readNumeral (t : Text) : Except (Fault × Fault) (Numeral × Text) :=
  match readWhole (takeMinus t).2 with
  | .error f => .error f
  | .ok (whole, t₁) =>
      match readFraction t₁ with
      | .error f => .error f
      | .ok (fraction, t₂) =>
          match readPower t₂ with
          | .error f => .error f
          | .ok (power, t₃) => .ok (⟨(takeMinus t).1, whole, fraction, power⟩, t₃)

theorem length_takeMinus_le (t : Text) : (takeMinus t).2.length ≤ t.length := by
  cases t with
  | nil => simp [takeMinus]
  | cons x rest =>
      simp only [takeMinus]
      split <;> simp

theorem length_takeSign_le (t : Text) : (takeSign t).2.length ≤ t.length := by
  cases t with
  | nil => simp [takeSign]
  | cons x rest =>
      simp only [takeSign]
      split
      · simp
      · exact length_takeMinus_le _

theorem length_readWhole_lt {t r : Text} {ds : List Nat} (h : readWhole t = .ok (ds, r)) :
    r.length < t.length := by
  cases t with
  | nil => simp [readWhole, digits] at h
  | cons x rest =>
      have hrest := length_digits_le rest
      cases hx : digit? x with
      | none => simp [readWhole, digits, hx] at h
      | some d =>
          have hr : (digits rest).2 = r := by
            simp only [readWhole, digits, hx] at h
            split at h <;> simp_all
          simp only [List.length_cons, ← hr]
          omega

theorem length_readFraction_le {t r : Text} {f : Option (List Nat)}
    (h : readFraction t = .ok (f, r)) : r.length ≤ t.length := by
  cases t with
  | nil => simp_all [readFraction]
  | cons x rest =>
      have hrest := length_digits_le rest
      simp only [readFraction] at h
      split at h
      · have hr : (digits rest).2 = r := by split at h <;> simp_all
        simp only [List.length_cons, ← hr]
        omega
      · simp_all

theorem length_readPower_le {t r : Text} {p : Option (Bool × List Nat)}
    (h : readPower t = .ok (p, r)) : r.length ≤ t.length := by
  cases t with
  | nil => simp_all [readPower]
  | cons x rest =>
      have hsign := length_takeSign_le rest
      have hrest := length_digits_le (takeSign rest).2
      simp only [readPower] at h
      split at h
      · have hr : (digits (takeSign rest).2).2 = r := by split at h <;> simp_all
        simp only [List.length_cons, ← hr]
        omega
      · simp_all

theorem length_readNumeral_lt {t r : Text} {x : Numeral} (h : readNumeral t = .ok (x, r)) :
    r.length < t.length := by
  have hminus := length_takeMinus_le t
  unfold readNumeral at h
  split at h
  · simp at h
  · next hwhole =>
      split at h
      · simp at h
      · next hfraction =>
          split at h
          · simp at h
          · next hpower =>
              have hw := length_readWhole_lt hwhole
              have hf := length_readFraction_le hfraction
              have hp := length_readPower_le hpower
              simp_all only [Except.ok.injEq, Prod.mk.injEq]
              omega

end GrammarShapes.Json
