import GrammarShapes.Json.Numeral

set_option autoImplicit false

/-! # Tokens

A text is cut into tokens before any value is made of it. A string or a numeral may be well formed and
still have no value; such a token carries the fault in place of the value, because only a reader who
asks for the value meets it. Where the text breaks off, the last token carries the fault twice: as it
shows to a reader who asks for the value, and to one who passes over it.
-/

namespace GrammarShapes.Json

inductive Token where
  | leftBrace
  | rightBrace
  | leftBracket
  | rightBracket
  | comma
  | colon
  | null
  | boolean (b : Bool)
  | number (value : Except Fault Number)
  | string (value : Except Fault String)
  /-- No token starts here, or one starts that is no string and breaks off. -/
  | broken (asked passed : Fault)
  /-- A string starts here and breaks off. -/
  | brokenString (asked passed : Fault)

structure StringScan where
  /-- The characters so far, last one first. -/
  chars : List Char := []
  /-- The first half of a pair of escapes that gives one character. -/
  pending : Option Nat := none
  undecodable : Bool := false
  /-- The first fault, other than bytes that encode no character. -/
  fault : Option Fault := none

namespace StringScan

def fail (s : StringScan) (f : Fault) : StringScan :=
  { s with fault := s.fault.or (some f) }

/-- Nothing but an escape may follow the first half of a pair. -/
def settle (s : StringScan) : StringScan :=
  match s.pending with
  | some _ => { s.fail .unpairedSurrogate with pending := none }
  | none => s

def push (s : StringScan) (c : Char) : StringScan :=
  { s with chars := c :: s.chars }

/-- Takes in the unit that four hexadecimal digits give. -/
def pushUnit (s : StringScan) (n : Nat) : StringScan :=
  let low := 0xdc00 ≤ n && n ≤ 0xdfff
  match s.pending with
  | some high =>
      if low then
        { s.push (Char.ofNat (0x10000 + (high - 0xd800) * 0x400 + (n - 0xdc00))) with pending := none }
      else { s.fail .loneSurrogate with pending := none }
  | none =>
      if low then s.fail .loneSurrogate
      else if 0xd800 ≤ n && n ≤ 0xdbff then { s with pending := some n }
      else s.push (Char.ofNat n)

def broken (s : StringScan) (f : Fault) : Fault × Fault :=
  (s.fault.getD f, f)

def value (s : StringScan) : Except Fault String :=
  match s.settle.fault with
  | some f => .error f
  | none => if s.undecodable then .error .undecodable else .ok (String.ofList s.chars.reverse)

end StringScan

/-- The character that a backslash and one letter stand for. -/
def escaped? (x : Option Char) : Option Char :=
  x.bind fun c =>
    if c = '"' || c = '\\' || c = '/' then some c
    else if c = 'b' then some '\x08'
    else if c = 'f' then some '\x0c'
    else if c = 'n' then some '\n'
    else if c = 'r' then some '\r'
    else if c = 't' then some '\t'
    else none

def hexUnit? (a b c d : Option Char) : Option Nat := do
  return (((← hexDigit? a) * 16 + (← hexDigit? b)) * 16 + (← hexDigit? c)) * 16 + (← hexDigit? d)

/-- Reads a string behind its opening quote: its value, and the text behind its closing quote. -/
def readString (s : StringScan) : Text → Except (Fault × Fault) (Except Fault String × Text)
  | [] => .error (s.broken .endInString)
  | none :: rest => readString { s.settle with undecodable := true } rest
  | some c :: rest =>
      if c = '"' then .ok (s.value, rest)
      else if c = '\\' then
        match rest with
        | [] => .error (s.broken .endInString)
        | e :: rest =>
            if e = some 'u' then
              match rest with
              | h₁ :: h₂ :: h₃ :: h₄ :: rest =>
                  match hexUnit? h₁ h₂ h₃ h₄ with
                  | some n => readString (s.pushUnit n) rest
                  | none => .error (s.broken .invalidEscape)
              | short =>
                  .error (s.broken (if Text.byteSize short < 4 then .endInString else .invalidEscape))
            else
              match escaped? e with
              | some c => readString (s.settle.push c) rest
              | none => .error (s.settle.broken .invalidEscape)
      else if c.toNat < 0x20 then .error (s.settle.broken .controlCharacter)
      else readString (s.settle.push c) rest

/-- Reads the rest of a word of which one letter has been read. -/
def readWord : List Char → Text → Except Fault Text
  | [], t => .ok t
  | _ :: _, [] => .error .endInValue
  | k :: ks, x :: rest => if x = some k then readWord ks rest else .error .expectedWord

theorem length_readString_le {s : StringScan} {t : Text} {v : Except Fault String} {r : Text}
    (h : readString s t = .ok (v, r)) : r.length ≤ t.length := by
  fun_induction readString s t <;> simp_all <;> omega

theorem length_readWord_le {ks : List Char} {t r : Text} (h : readWord ks t = .ok r) :
    r.length ≤ t.length := by
  fun_induction readWord ks t <;> simp_all
  omega

def tokens : Text → List Token
  | [] => []
  | none :: _ => [.broken .expectedValue .expectedValue]
  | some c :: rest =>
      if isBlank c then tokens rest
      else if c = '\x7b' then .leftBrace :: tokens rest
      else if c = '\x7d' then .rightBrace :: tokens rest
      else if c = '[' then .leftBracket :: tokens rest
      else if c = ']' then .rightBracket :: tokens rest
      else if c = ',' then .comma :: tokens rest
      else if c = ':' then .colon :: tokens rest
      else if c = '"' then
        match _h : readString {} rest with
        | .ok (v, r) => .string v :: tokens r
        | .error (asked, passed) => [.brokenString asked passed]
      else if c = '-' || c.isDigit then
        match _h : readNumeral (some c :: rest) with
        | .ok (x, r) => .number x.value :: tokens r
        | .error (asked, passed) => [.broken asked passed]
      else if c = 'n' then
        match _h : readWord ['u', 'l', 'l'] rest with
        | .ok r => .null :: tokens r
        | .error f => [.broken f f]
      else if c = 't' then
        match _h : readWord ['r', 'u', 'e'] rest with
        | .ok r => .boolean true :: tokens r
        | .error f => [.broken f f]
      else if c = 'f' then
        match _h : readWord ['a', 'l', 's', 'e'] rest with
        | .ok r => .boolean false :: tokens r
        | .error f => [.broken f f]
      else [.broken .expectedValue .expectedValue]
termination_by t => t.length
decreasing_by
  all_goals simp only [List.length_cons]
  all_goals try omega
  · have := length_readString_le _h
    omega
  · have := length_readNumeral_lt _h
    simp only [List.length_cons] at this
    omega
  · have := length_readWord_le _h
    omega
  · have := length_readWord_le _h
    omega
  · have := length_readWord_le _h
    omega

end GrammarShapes.Json
