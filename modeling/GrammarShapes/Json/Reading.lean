import GrammarShapes.Json.Draft
import GrammarShapes.Json.Mismatch

set_option autoImplicit false

/-! # Reading drafts

A reader walks a draft in the order of the text and stops at the first fault or mismatch. Records and
tagged values are read here for all the types of the library: a record is an object whose members fill
its fields, or an array that lists its fields in order; a tagged value names its kind by one member, or by
the first item of an array.
-/

namespace GrammarShapes.Json

def orFault {α : Type} (v : Except Fault α) : Except Error α :=
  v.mapError .fault

def checkEnd (fault : Option Fault) : Except Error Unit :=
  match fault with
  | some f => .error (.fault f)
  | none => .ok ()

def wrongType {α : Type} (found : Found) (expected : String) : Except Error α :=
  .error (.mismatch (.wrongType found expected))

namespace Draft

def value (d : Draft) : Except Error Json :=
  orFault d.read

def pass (d : Draft) : Except Error Unit :=
  checkEnd d.passed

/-- The mismatch of a value of the wrong type. Only a number or a string has to be whole for it. -/
def refuse {α : Type} (expected : String) : Draft → Except Error α
  | .null => wrongType .null expected
  | .boolean b => wrongType (.boolean b) expected
  | .number v => do wrongType (.number (← orFault v)) expected
  | .string v => do wrongType (.string (← orFault v)) expected
  | .array _ _ => wrongType .sequence expected
  | .object _ _ => wrongType .map expected
  | .broken f _ => .error (.fault f)

def asString (expected : String) : Draft → Except Error String
  | .string v => orFault v
  | d => d.refuse expected

def asSize : Draft → Except Error Nat
  | .number v => do
      match ← orFault v with
      | .integer (.ofNat n) => return n
      | .integer n => .error (.mismatch (.wrongValue (.number (.integer n)) "usize"))
      | n => wrongType (.number n) "usize"
  | d => d.refuse "usize"

/-- Nothing for `null`, else what the reader gives. -/
def asOptional {α : Type} (read : Draft → Except Error α) : Draft → Except Error (Option α)
  | .null => .ok none
  | d => some <$> read d

def readEach {α : Type} (read : Draft → Except Error α) : List Draft → Except Error (List α)
  | [] => .ok []
  | d :: rest => do
      let v ← read d
      let vs ← readEach read rest
      return v :: vs

def asList {α : Type} (read : Draft → Except Error α) : Draft → Except Error (List α)
  | .array items ending => do
      let vs ← readEach read items
      checkEnd ending.asked
      return vs
  | d => d.refuse "a sequence"

def foldMembers {σ : Type} (step : σ → String → Draft → Except Error σ) :
    σ → List (Except Fault String × Draft) → Except Error σ
  | s, [] => .ok s
  | s, (name, d) :: rest => do
      let name ← orFault name
      let s ← step s name d
      foldMembers step s rest

def asMap {σ : Type} (step : σ → String → Draft → Except Error σ) (start : σ) :
    Draft → Except Error σ
  | .object members ending => do
      let s ← foldMembers step start members
      checkEnd ending.asked
      return s
  | d => d.refuse "a map"

end Draft

/-- Fills a field of a record, which may be given once. -/
def once {α : Type} (field : String) (old : Option α) (read : Except Error α) :
    Except Error (Option α) :=
  if old.isSome then .error (.mismatch (.repeatedField field)) else some <$> read

def required {α : Type} (field : String) : Option α → Except Error α
  | some v => .ok v
  | none => .error (.mismatch (.missingField field))

/-- What a reader makes of a whole text, in which nothing may follow the value. -/
def readText {α : Type} (read : Draft → Except Error α) (t : Text) : Except Error α := do
  let v ← read (Document.ofText t).root
  if (Document.ofText t).trailing then .error (.fault .trailingCharacters) else return v

/-- What happens to items of an array that no field of a record takes: they are a fault of the text, or,
where the whole value is at hand, a mismatch of its length. -/
inductive Surplus where
  | inText
  | inValue
deriving DecidableEq

structure ItemQueue where
  items : List Draft
  ending : ArrayEnd

namespace ItemQueue

def next (q : ItemQueue) : Except Error (Option Draft × ItemQueue) :=
  match q.items with
  | d :: rest => .ok (some d, ⟨rest, q.ending⟩)
  | [] => do
      checkEnd q.ending.asked
      return (none, q)

/-- Reads the next item, which is the part at place `i` of what is expected. -/
def part {α : Type} (read : Draft → Except Error α) (i : Nat) (expected : String)
    (q : ItemQueue) : Except Error (α × ItemQueue) := do
  let (d, q) ← q.next
  match d with
  | some d => return (← read d, q)
  | none => .error (.mismatch (.wrongLength i expected))

/-- Nothing may follow the `taken` items that were read. -/
def close (surplus : Surplus) (taken : Nat) (q : ItemQueue) : Except Error Unit :=
  match q.items, surplus with
  | [], _ => checkEnd q.ending.final
  | _ :: _, .inText => .error (.fault .trailingCharacters)
  | rest@(_ :: _), .inValue =>
      .error (.mismatch (.wrongLength (taken + rest.length) "fewer elements in array"))

end ItemQueue

inductive Content where
  | members (ms : List (String × Json))
  | items (vs : List Json)

/-- How the tag of a tagged value is written and read. -/
structure Tagging (τ : Type) where
  /-- The name of the member that holds the tag. -/
  field : String
  /-- What is expected where a tagged value belongs. -/
  expected : String
  known : List (String × τ)

namespace Tagging

variable {τ : Type}

def ofName (t : Tagging τ) (name : String) : Except Error τ :=
  match t.known.lookup name with
  | some tag => .ok tag
  | none => .error (.mismatch (.unknownVariant name (t.known.map (·.1))))

def ofDraft (t : Tagging τ) (d : Draft) : Except Error τ := do
  t.ofName (← d.asString "variant identifier")

/-- The tag that a value names. Inside another tagged value a tag may also be given by its number. -/
def ofJson (t : Tagging τ) : Json → Except Error τ
  | .string name => t.ofName name
  | .number (.integer (.ofNat n)) =>
      match t.known[n]? with
      | some (_, tag) => .ok tag
      | none => .error (.mismatch (.wrongValue (.number (.integer n))
          ("variant index 0 <= i < " ++ toString t.known.length)))
  | v => wrongType (.ofJson v) "variant identifier"

/-- Reads the members of a tagged value; the tag is interpreted as soon as it is met. -/
def readMembers (t : Tagging τ) :
    Option τ → List (Except Fault String × Draft) → Except Error (Option τ × List (String × Json))
  | tag, [] => .ok (tag, [])
  | tag, (name, d) :: rest => do
      let name ← orFault name
      if name = t.field then
        if tag.isSome then .error (.mismatch (.repeatedField t.field))
        else
          let tag ← t.ofDraft d
          readMembers t (some tag) rest
      else
        let v ← d.value
        let (tag, ms) ← readMembers t tag rest
        return (tag, (name, v) :: ms)

def read (t : Tagging τ) : Draft → Except Error (τ × Content)
  | .object members ending => do
      let (tag, ms) ← t.readMembers none members
      checkEnd ending.asked
      return (← required t.field tag, .members ms)
  | .array [] ending => do
      checkEnd ending.asked
      .error (.mismatch (.missingField t.field))
  | .array (d :: rest) ending => do
      let tag ← t.ofDraft d
      let vs ← Draft.readEach Draft.value rest
      checkEnd ending.asked
      return (tag, .items vs)
  | d => d.refuse t.expected

def findTag (t : Tagging τ) : Option τ → List (String × Json) → Except Error (Option τ)
  | tag, [] => .ok tag
  | tag, (name, v) :: rest =>
      if name = t.field then
        if tag.isSome then .error (.mismatch (.repeatedField t.field))
        else do
          let tag ← t.ofJson v
          findTag t (some tag) rest
      else findTag t tag rest

end Tagging

end GrammarShapes.Json
