import GrammarShapes.Decimal.Nearest
import GrammarShapes.Text.Digits
import GrammarShapes.Toml.Characters
import GrammarShapes.Toml.Value

set_option autoImplicit false

/-! # Words of a TOML text

A word is a value without quotes or brackets: a truth value, a number or a moment. Single underscores may
stand between the digits of a number. A blank belongs to a word only between a date and a time.
-/

namespace GrammarShapes.Toml

namespace Word

/-- The digits of a number without the underscores between them. -/
def underscored (isDigit : Char → Bool) : List Char → Option (List Char)
  | [] => none
  | [c] => if isDigit c then some [c] else none
  | c :: '_' :: rest => if isDigit c then (underscored isDigit rest).map (c :: ·) else none
  | c :: rest => if isDigit c then (underscored isDigit rest).map (c :: ·) else none

/-- Whether the number is negative, and what follows the sign, if there is one. -/
def takeSign : List Char → Bool × List Char
  | '-' :: rest => (true, rest)
  | '+' :: rest => (false, rest)
  | cs => (false, cs)

def signed (negative : Bool) (n : Nat) : Int :=
  if negative then -(n : Int) else n

/-- The decimal digits of a whole number, which begin with zero only if there is nothing else. -/
def wholeDigits (cs : List Char) : Option (List Char) := do
  let ds ← underscored Char.isDigit cs
  if ds.length = 1 || ds.head? ≠ some '0' then some ds else none

def bounded (n : Int) : Option Value :=
  if -9223372036854775808 ≤ n && n < 9223372036854775808 then some (.integer n) else none

def inBase (base : Nat) (isDigit : Char → Bool) (cs : List Char) : Option Value := do
  bounded (Text.digitsValue base (← underscored isDigit cs))

def integer? : List Char → Option Value
  | '0' :: 'x' :: rest => inBase 16 Text.isHexDigit rest
  | '0' :: 'o' :: rest => inBase 8 (fun c => '0' ≤ c && c ≤ '7') rest
  | '0' :: 'b' :: rest => inBase 2 (fun c => c = '0' || c = '1') rest
  | cs => do
      let (negative, cs) := takeSign cs
      bounded (signed negative (Text.digitsValue 10 (← wholeDigits cs)))

/-- The exponent that follows the digits of a number; there may be none. -/
def power? : List Char → Option Int
  | [] => some 0
  | c :: rest =>
      if c = 'e' || c = 'E' then do
        let (negative, rest) := takeSign rest
        some (signed negative (Text.digitsValue 10 (← underscored Char.isDigit rest)))
      else none

def isPower (c : Char) : Bool :=
  c = 'e' || c = 'E'

/-- The digits behind the point; there may be no point. -/
def fraction? : List Char → Option (List Char)
  | [] => some []
  | '.' :: rest => underscored Char.isDigit rest
  | _ => none

/-- The float that digits with a point, an exponent, or both denote. It must not be beyond the greatest. -/
def decimal? (cs : List Char) : Option Value := do
  let (negative, cs) := takeSign cs
  let rest := cs.dropWhile fun c => c ≠ '.' && !isPower c
  if rest.isEmpty then none
  let whole ← wholeDigits (cs.takeWhile fun c => c ≠ '.' && !isPower c)
  let fraction ← fraction? (rest.takeWhile fun c => !isPower c)
  let power ← power? (rest.dropWhile fun c => !isPower c)
  let bits := Decimal.nearestBits negative (Text.digitsValue 10 (whole ++ fraction)) (power - fraction.length)
  if bits = infinity then none else some (.float bits)
where
  infinity : UInt64 := (1.0 / 0.0 : Float).toBits

/-- A float that is not a number of its own. -/
def special? (cs : List Char) : Option Value :=
  let (negative, cs) := takeSign cs
  let magnitude : Option Float :=
    if cs = ['i', 'n', 'f'] then some (1.0 / 0.0)
    else if cs = ['n', 'a', 'n'] then some (0.0 / 0.0)
    else none
  magnitude.map fun f => .float (if negative then (-f).toBits else f.toBits)

def boolean? (cs : List Char) : Option Value :=
  if cs = ['t', 'r', 'u', 'e'] then some (.boolean true)
  else if cs = ['f', 'a', 'l', 's', 'e'] then some (.boolean false)
  else none

def value? (cs : List Char) : Option Value :=
  boolean? cs <|> (Moment.ofWord cs).map .moment <|> decimal? cs <|> integer? cs <|> special? cs

def isPart (c : Char) : Bool :=
  c.isAlphanum || c = '_' || c = '+' || c = '-' || c = '.' || c = ':'

def first (cs : List Char) : List Char × List Char :=
  (cs.takeWhile isPart, cs.dropWhile isPart)

end Word

/-- Reads a word. A date takes the word behind the next space for its time. -/
def readWord : Reader Value := fun cs =>
  let (word, rest) := Word.first cs
  match Moment.ofWord word, rest with
  | some (.date d), ' ' :: more =>
      let (time, after) := Word.first more
      if time.isEmpty then some (.moment (.date d), rest)
      else (Moment.readBoth d time).map fun m => (.moment m, after)
  | _, _ => (Word.value? word).map fun v => (v, rest)

end GrammarShapes.Toml
