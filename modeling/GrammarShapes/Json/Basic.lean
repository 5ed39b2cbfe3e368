import GrammarShapes.Decimal.Shortest

set_option autoImplicit false

/-! # Json values

A value keeps the members of an object as they were written: in order, with repeated names. The sorted
form of a value has every object in ascending order of names, each name once, with its last value.
-/

namespace GrammarShapes

/-- A number is a whole number of at most sixty-four bits or a binary64 number, given by its bits. -/
inductive Json.Number where
  | integer (n : Int)
  | binary64 (bits : UInt64)
deriving DecidableEq

inductive Json where
  | null
  | boolean (b : Bool)
  | number (n : Json.Number)
  | string (s : String)
  | array (items : List Json)
  | object (members : List (String × Json))

namespace Json

/-- Puts a member where its name belongs among members in ascending order. -/
def insertMember (name : String) (value : Json) : List (String × Json) → List (String × Json)
  | [] => [(name, value)]
  | (other, v) :: rest =>
      if name < other then (name, value) :: (other, v) :: rest
      else (other, v) :: insertMember name value rest

mutual

/-- Every object in ascending order of names, each name once, with its last value. -/
def sorted : Json → Json
  | .array items => .array (sortedItems items)
  | .object members => .object (sortedMembers members)
  | .null => .null
  | .boolean b => .boolean b
  | .number n => .number n
  | .string s => .string s

def sortedItems : List Json → List Json
  | [] => []
  | v :: rest => sorted v :: sortedItems rest

def sortedMembers : List (String × Json) → List (String × Json)
  | [] => []
  | (name, v) :: rest =>
      if rest.any (·.1 == name) then sortedMembers rest
      else insertMember name (sorted v) (sortedMembers rest)

end

mutual

def nesting : Json → Nat
  | .array items => nestingItems items + 1
  | .object members => nestingMembers members + 1
  | .null => 0
  | .boolean _ => 0
  | .number _ => 0
  | .string _ => 0

def nestingItems : List Json → Nat
  | [] => 0
  | v :: rest => max (nesting v) (nestingItems rest)

def nestingMembers : List (String × Json) → Nat
  | [] => 0
  | (_, v) :: rest => max (nesting v) (nestingMembers rest)

end

theorem sortedItems_eq_map (items : List Json) : sortedItems items = items.map sorted := by
  induction items with
  | nil => rfl
  | cons v rest ih => simp [sortedItems, ih]

theorem mem_insertMember_iff {name : String} {value : Json} {members : List (String × Json)}
    {m : String × Json} :
    m ∈ insertMember name value members ↔ m = (name, value) ∨ m ∈ members := by
  induction members with
  | nil => simp [insertMember]
  | cons head rest ih =>
      obtain ⟨other, v⟩ := head
      by_cases h : name < other
      · simp [insertMember, h]
      · simp only [insertMember, h, if_false, List.mem_cons, ih]
        constructor
        · rintro (h | h | h)
          · exact Or.inr (Or.inl h)
          · exact Or.inl h
          · exact Or.inr (Or.inr h)
        · rintro (h | h | h)
          · exact Or.inr (Or.inl h)
          · exact Or.inl h
          · exact Or.inr (Or.inr h)

end Json

end GrammarShapes
