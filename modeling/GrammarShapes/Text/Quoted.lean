import GrammarShapes.Text.Printable

set_option autoImplicit false

/-! # Quoted text

The quoted form of a text stands between double quotes on one line: a quote, a backslash, a line end, a
tab and the null character have short escapes, an extender and an unprintable character are given by
their code point, and every other character stands for itself.
-/

namespace GrammarShapes.Text

/-- An escape that gives the code point in lower-case hexadecimal without leading zeros. -/
def codePointEscape (c : Char) : List Char :=
  ['\\', 'u', '\x7b'] ++ Nat.toDigits 16 c.toNat ++ ['\x7d']

/-- The characters that stand for one character between quotes. -/
def quotedChar (c : Char) : List Char :=
  if c = '"' then ['\\', '"']
  else if c = '\\' then ['\\', '\\']
  else if c = '\n' then ['\\', 'n']
  else if c = '\r' then ['\\', 'r']
  else if c = '\t' then ['\\', 't']
  else if c = '\x00' then ['\\', '0']
  else if isExtender c || !isPrintable c then codePointEscape c
  else [c]

def quoted (s : String) : String :=
  String.ofList ('"' :: s.toList.flatMap quotedChar ++ ['"'])

end GrammarShapes.Text
