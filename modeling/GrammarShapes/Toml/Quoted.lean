import GrammarShapes.Text.Digits
import GrammarShapes.Toml.Characters

set_option autoImplicit false

/-! # Strings of a TOML text

A string stands between double quotes, where a backslash begins an escape, or between single quotes, where
it does not. Between three quotes of either kind it may span lines; a line end directly behind the opening
quotes does not count, and a backslash at the end of a line passes over the line end and the blanks behind.
-/

namespace GrammarShapes.Toml

structure Quoting where
  quote : Char
  /-- Whether a backslash begins an escape. -/
  escapes : Bool
  /-- Whether the string stands between three quotes and may span lines. -/
  spans : Bool

namespace Quoting

/-- The character whose code is written with the first `count` hexadecimal digits. -/
def codePoint? (count : Nat) (cs : List Char) : Option Char :=
  let ds := cs.take count
  let code := Text.digitsValue 16 ds
  if ds.length = count && ds.all Text.isHexDigit && code.isValidChar then some (Char.ofNat code)
  else none

/-- The character that an escape stands for, given what follows the backslash, and the number of
characters that are used. -/
def escape? : List Char → Option (Char × Nat)
  | 'b' :: _ => some ('\x08', 1)
  | 't' :: _ => some ('\t', 1)
  | 'n' :: _ => some ('\n', 1)
  | 'f' :: _ => some ('\x0c', 1)
  | 'r' :: _ => some ('\r', 1)
  | '"' :: _ => some ('"', 1)
  | '\\' :: _ => some ('\\', 1)
  | 'u' :: rest => (codePoint? 4 rest).map fun c => (c, 5)
  | 'U' :: rest => (codePoint? 8 rest).map fun c => (c, 9)
  | _ => none

/-- The number of characters behind a backslash that are passed over because the line ends there. -/
def fold? (cs : List Char) : Option Nat :=
  (lineEnd? (skipBlanks cs)).map fun rest => cs.length - (skipLines rest).length

/-- The characters up to the closing quotes; the first `skip` characters have been dealt with. -/
def body (q : Quoting) (skip : Nat) : Reader (List Char)
  | [] => none
  | c :: rest =>
      match skip with
      | skip + 1 => q.body skip rest
      | 0 =>
          if c = q.quote then
            if q.spans then
              let more := (rest.takeWhile (· = q.quote)).length
              if more < 2 then do
                let (cs, after) ← q.body more rest
                some (List.replicate (more + 1) c ++ cs, after)
              else if more < 5 then some (List.replicate (more - 2) c, rest.drop more)
              else none
            else some ([], rest)
          else if q.escapes && c = '\\' then
            match (if q.spans then fold? rest else none) with
            | some used => q.body used rest
            | none => do
                let (x, used) ← escape? rest
                let (cs, after) ← q.body used rest
                some (x :: cs, after)
          else if isPlain c then do
            let (cs, after) ← q.body 0 rest
            some (c :: cs, after)
          else if q.spans then
            match lineEnd? (c :: rest) with
            | none => none
            | some next => do
                let (cs, after) ← q.body (rest.length - next.length) rest
                some ('\n' :: cs, after)
          else none

/-- The string whose opening quotes have been read. -/
def text (q : Quoting) (cs : List Char) : Option (String × List Char) := do
  let start := if q.spans then (lineEnd? cs).getD cs else cs
  let (content, rest) ← q.body 0 start
  some (String.ofList content, rest)

end Quoting

def readLineString : Reader String
  | '"' :: rest => Quoting.text ⟨'"', true, false⟩ rest
  | '\'' :: rest => Quoting.text ⟨'\'', false, false⟩ rest
  | _ => none

def readString : Reader String
  | '"' :: '"' :: '"' :: rest => Quoting.text ⟨'"', true, true⟩ rest
  | '\'' :: '\'' :: '\'' :: rest => Quoting.text ⟨'\'', false, true⟩ rest
  | cs => readLineString cs

end GrammarShapes.Toml
