set_option autoImplicit false

/-! # Rules

A rule is a tree of production nodes. The set of node kinds is closed: every kind has one tag, and there is
no other tag. `Rule.children` gives the direct sub-rules, `Rule.references` the names of all symbols below
a node in the order in which they are written.
-/

namespace GrammarShapes

/-- A precedence is a level or the name of one. It never affects shapes. -/
inductive Precedence where
  | level (n : Int64)
  | name (s : String)
deriving DecidableEq

inductive Rule where
  | blank
  | literal (text : String)
  | pattern (regex : String) (flags : Option String)
  | symbol (name : String)
  | alias (content : Rule) (named : Bool) (name : String)
  | field (name : String) (content : Rule)
  | sequence (members : List Rule)
  | choice (members : List Rule)
  | zeroOrMore (content : Rule)
  | oneOrMore (content : Rule)
  | ranked (precedence : Option Precedence) (content : Rule)
  | rankedLeft (precedence : Option Precedence) (content : Rule)

inductive Tag where
  | blank
  | literal
  | pattern
  | symbol
  | alias
  | field
  | sequence
  | choice
  | zeroOrMore
  | oneOrMore
  | ranked
  | rankedLeft
deriving DecidableEq

namespace Tag

/-- The tag as it is written in a grammar document. -/
def text : Tag → String
  | .blank => "BLANK"
  | .literal => "STRING"
  | .pattern => "PATTERN"
  | .symbol => "SYMBOL"
  | .alias => "ALIAS"
  | .field => "FIELD"
  | .sequence => "SEQ"
  | .choice => "CHOICE"
  | .zeroOrMore => "REPEAT"
  | .oneOrMore => "REPEAT1"
  | .ranked => "PREC"
  | .rankedLeft => "PREC_LEFT"

def all : List Tag :=
  [.blank, .literal, .pattern, .symbol, .alias, .field, .sequence, .choice, .zeroOrMore, .oneOrMore,
    .ranked, .rankedLeft]

end Tag

namespace Rule

mutual

def same : Rule → Rule → Bool
  | .blank, .blank => true
  | .literal a, .literal b => a == b
  | .pattern a f, .pattern b g => a == b && f == g
  | .symbol a, .symbol b => a == b
  | .alias r m a, .alias s n b => same r s && m == n && a == b
  | .field a r, .field b s => a == b && same r s
  | .sequence rs, .sequence ss => sameAll rs ss
  | .choice rs, .choice ss => sameAll rs ss
  | .zeroOrMore r, .zeroOrMore s => same r s
  | .oneOrMore r, .oneOrMore s => same r s
  | .ranked p r, .ranked q s => p == q && same r s
  | .rankedLeft p r, .rankedLeft q s => p == q && same r s
  | _, _ => false

def sameAll : List Rule → List Rule → Bool
  | [], [] => true
  | r :: rs, s :: ss => same r s && sameAll rs ss
  | _, _ => false

end

mutual

theorem same_iff : ∀ r s : Rule, same r s = true ↔ r = s
  | .alias r m a, s => by cases s <;> simp [same, same_iff r, and_assoc]
  | .field a r, s => by cases s <;> simp [same, same_iff r]
  | .sequence rs, s => by cases s <;> simp [same, sameAll_iff rs]
  | .choice rs, s => by cases s <;> simp [same, sameAll_iff rs]
  | .zeroOrMore r, s => by cases s <;> simp [same, same_iff r]
  | .oneOrMore r, s => by cases s <;> simp [same, same_iff r]
  | .ranked p r, s => by cases s <;> simp [same, same_iff r]
  | .rankedLeft p r, s => by cases s <;> simp [same, same_iff r]
  | .blank, s => by cases s <;> simp [same]
  | .literal a, s => by cases s <;> simp [same]
  | .pattern a f, s => by cases s <;> simp [same]
  | .symbol a, s => by cases s <;> simp [same]

theorem sameAll_iff : ∀ rs ss : List Rule, sameAll rs ss = true ↔ rs = ss
  | [], ss => by cases ss <;> simp [sameAll]
  | r :: rs, ss => by cases ss <;> simp [sameAll, same_iff r, sameAll_iff rs]

end

instance : DecidableEq Rule := fun r s => decidable_of_iff _ (same_iff r s)

def tag : Rule → Tag
  | .blank => .blank
  | .literal _ => .literal
  | .pattern _ _ => .pattern
  | .symbol _ => .symbol
  | .alias _ _ _ => .alias
  | .field _ _ => .field
  | .sequence _ => .sequence
  | .choice _ => .choice
  | .zeroOrMore _ => .zeroOrMore
  | .oneOrMore _ => .oneOrMore
  | .ranked _ _ => .ranked
  | .rankedLeft _ _ => .rankedLeft

/-- Whether a rule with this top node produces a collection of children. -/
def isCollection : Rule → Bool
  | .zeroOrMore _ => true
  | .oneOrMore _ => true
  | .choice _ => true
  | .sequence _ => true
  | _ => false

/-- The direct sub-rules in the order in which they are declared. -/
def children : Rule → List Rule
  | .sequence members => members
  | .choice members => members
  | .alias content _ _ => [content]
  | .field _ content => [content]
  | .zeroOrMore content => [content]
  | .oneOrMore content => [content]
  | .ranked _ content => [content]
  | .rankedLeft _ content => [content]
  | .blank => []
  | .literal _ => []
  | .pattern _ _ => []
  | .symbol _ => []

mutual

def size : Rule → Nat
  | .sequence members => sizeAll members + 1
  | .choice members => sizeAll members + 1
  | .alias content _ _ => size content + 1
  | .field _ content => size content + 1
  | .zeroOrMore content => size content + 1
  | .oneOrMore content => size content + 1
  | .ranked _ content => size content + 1
  | .rankedLeft _ content => size content + 1
  | .blank => 1
  | .literal _ => 1
  | .pattern _ _ => 1
  | .symbol _ => 1

def sizeAll : List Rule → Nat
  | [] => 0
  | r :: rest => size r + sizeAll rest

end

theorem size_eq (r : Rule) : r.size = sizeAll r.children + 1 := by
  cases r <;> simp [size, children, sizeAll]

theorem sizeAll_append (xs ys : List Rule) : sizeAll (xs ++ ys) = sizeAll xs + sizeAll ys := by
  induction xs with
  | nil => simp [sizeAll]
  | cons x xs ih => simp [sizeAll, ih, Nat.add_assoc]

def symbol? : Rule → Option String
  | .symbol name => some name
  | _ => none

/-- The names of all symbols at or below the nodes of a work list. The next node is taken off the list,
and its direct sub-rules are put in its place. -/
def referencesOf : List Rule → List String
  | [] => []
  | r :: rest => r.symbol?.toList ++ referencesOf (r.children ++ rest)
termination_by rs => sizeAll rs
decreasing_by
  simp only [sizeAll, sizeAll_append, size_eq r]
  omega

/-- The names of all symbols at or below a node, in the order in which they are written. -/
def references (r : Rule) : List String :=
  referencesOf [r]

end Rule

end GrammarShapes
