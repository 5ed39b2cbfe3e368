import GrammarShapes.Tree.Builder

set_option autoImplicit false

/-! # Trees in parentheses

A tree is written with the kind of each node: a word is a node without children, and a word behind an
opening parenthesis is a node whose children stand before the closing one. Blanks only separate words. As
every other character belongs to a word, all texts fall into tokens, and no error is about a character.
-/

namespace GrammarShapes

namespace Parenthesized

inductive Token where
  | opening
  | closing
  | word (kind : String)
deriving DecidableEq

def isBlank (c : Char) : Bool :=
  c = ' ' || c = '\t' || c = '\r' || c = '\n'

/-- The word whose characters have been read, last one first, before other tokens. -/
def endWord (word : List Char) (rest : List Token) : List Token :=
  if word.isEmpty then rest else .word (String.ofList word.reverse) :: rest

/-- The tokens of a text behind the characters of a word. -/
def tokensAfter (word : List Char) : List Char → List Token
  | [] => endWord word []
  | c :: rest =>
      if c = '(' then endWord word (.opening :: tokensAfter [] rest)
      else if c = ')' then endWord word (.closing :: tokensAfter [] rest)
      else if isBlank c then endWord word (tokensAfter [] rest)
      else tokensAfter (c :: word) rest

def tokens (source : String) : List Token :=
  tokensAfter [] source.toList

/-- Builds the tokens onto a builder. A missing kind ends the building at once. -/
def build (b : TreeBuilder) : List Token → Except TreeError TreeBuilder
  | [] => .ok b
  | .opening :: .word kind :: rest => build (b.step (.start kind {})) rest
  | .opening :: _ => .error .missingKind
  | .closing :: rest => build (b.step .finish) rest
  | .word kind :: rest => build (b.step (.token kind {})) rest

/-- The tree that a text in parentheses denotes. -/
def tree (source : String) : Except TreeError SyntaxTree := do
  (← build .new (tokens source)).finish

end Parenthesized

end GrammarShapes
