set_option autoImplicit false

/-! # Characters of a TOML text

A line ends with a line feed, which a carriage return may precede. A comment reaches to the end of its
line. Control characters other than the tab stand nowhere else.
-/

namespace GrammarShapes.Toml

/-- A reader takes a value from the front of a text and leaves the rest; it may refuse the text. -/
abbrev Reader (α : Type) :=
  List Char → Option (α × List Char)

def isBlank (c : Char) : Bool :=
  c = ' ' || c = '\t'

/-- Whether a character may stand in a comment or, quotes apart, in a string. -/
def isPlain (c : Char) : Bool :=
  c = '\t' || (' ' ≤ c && c ≠ '\x7f')

def skipBlanks (cs : List Char) : List Char :=
  cs.dropWhile isBlank

/-- What follows a line end, if one comes first. -/
def lineEnd? : List Char → Option (List Char)
  | '\n' :: rest => some rest
  | '\r' :: '\n' :: rest => some rest
  | _ => none

def skipComment : List Char → List Char
  | '#' :: rest => rest.dropWhile isPlain
  | cs => cs

/-- What follows the statement that ends here, perhaps with a comment. -/
def endStatement (cs : List Char) : Option (List Char) :=
  match skipComment (skipBlanks cs) with
  | [] => some []
  | rest => lineEnd? rest

def skipLines : List Char → List Char
  | '\n' :: rest => skipLines rest
  | '\r' :: '\n' :: rest => skipLines rest
  | c :: rest => if isBlank c then skipLines rest else c :: rest
  | [] => []

/-- Passes over blanks, line ends and comments up to something else, which has to come. -/
def skipGap (inComment : Bool) : List Char → Option (List Char)
  | '\n' :: rest => skipGap false rest
  | '\r' :: '\n' :: rest => skipGap false rest
  | c :: rest =>
      if inComment then if isPlain c then skipGap true rest else none
      else if isBlank c then skipGap false rest
      else if c = '#' then skipGap true rest
      else some (c :: rest)
  | [] => none

end GrammarShapes.Toml
