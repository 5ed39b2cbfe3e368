set_option autoImplicit false

/-! # The characters of a Json text

A text that comes as bytes may hold bytes that encode no character. It is read as a list of characters in
which each such byte is `none`, so that texts and bytes are read by the same functions.
-/

namespace GrammarShapes.Json

/-- The characters of a text, where `none` is a byte that belongs to no character. -/
abbrev Text := List (Option Char)

def Text.ofString (s : String) : Text :=
  s.toList.map some

/-- The characters that the bytes from position `i` on encode. -/
def Text.decodeFrom (bytes : ByteArray) (i : Nat) : Text :=
  if _h : i < bytes.size then
    match bytes.utf8DecodeChar? i with
    | some c => some c :: Text.decodeFrom bytes (i + c.utf8Size)
    | none => none :: Text.decodeFrom bytes (i + 1)
  else []
termination_by bytes.size - i
decreasing_by
  · have := c.utf8Size_pos
    omega
  · omega

def Text.ofBytes (bytes : ByteArray) : Text :=
  Text.decodeFrom bytes 0

def Text.byteSize (t : Text) : Nat :=
  t.foldr (fun x n => (x.map Char.utf8Size).getD 1 + n) 0

def isBlank (c : Char) : Bool :=
  c = ' ' || c = '\n' || c = '\r' || c = '\t'

def digit? (x : Option Char) : Option Nat :=
  x.bind fun c => if c.isDigit then some (c.toNat - 48) else none

def hexDigit? (x : Option Char) : Option Nat :=
  x.bind fun c =>
    if c.isDigit then some (c.toNat - 48)
    else if 97 ≤ c.toNat && c.toNat ≤ 102 then some (c.toNat - 87)
    else if 65 ≤ c.toNat && c.toNat ≤ 70 then some (c.toNat - 55)
    else none

/-- The digits at the head of a text and what follows them. -/
def digits : Text → List Nat × Text
  | [] => ([], [])
  | x :: rest =>
      match digit? x with
      | some d => (d :: (digits rest).1, (digits rest).2)
      | none => ([], x :: rest)

theorem length_digits_le (t : Text) : (digits t).2.length ≤ t.length := by
  induction t with
  | nil => simp [digits]
  | cons x rest ih =>
      cases h : digit? x <;> simp only [digits, h, List.length_cons] <;> omega

end GrammarShapes.Json
