import GrammarShapes.Json.Token

set_option autoImplicit false

/-! # Drafts

A draft is a value as far as a text gives one. Where the text breaks off or stops being well formed, the
draft records it at that place, so that a reader who walks the draft in the order of the text meets a
fault exactly when it would have met it in the text. What a fault is called can depend on whether the
reader asks for the value or passes over it. A value that is nested too deep cannot be asked for, but it
can be passed over.

A draft is made from the tokens by a machine that keeps the arrays and objects that are still open.
-/

namespace GrammarShapes.Json

/-- What stands behind the last item of an array. -/
inductive ArrayEnd where
  | closed
  | comma
  | commaTextEnd
  /-- Neither a comma nor the closing bracket. -/
  | stray
  | textEnd
deriving DecidableEq

/-- What stands behind the last member of an object. -/
inductive ObjectEnd where
  | closed
  | comma
  | commaTextEnd
  /-- Something other than a string where a name belongs. -/
  | noName
  /-- A name that breaks off. -/
  | brokenName (asked passed : Fault)
  /-- Neither a comma nor the closing brace. -/
  | stray
  | textEnd
deriving DecidableEq

/-- The fault that a reader of the items meets behind the last one. -/
def ArrayEnd.asked : ArrayEnd → Option Fault
  | .closed => none
  | .comma => some .trailingComma
  | .commaTextEnd => some .endInValue
  | .stray => some .expectedCommaOrBracket
  | .textEnd => some .endInArray

def ArrayEnd.passed : ArrayEnd → Option Fault
  | .closed => none
  | .comma => some .expectedValue
  | .commaTextEnd => some .endInValue
  | .stray => some .expectedCommaOrBracket
  | .textEnd => some .endInArray

/-- The fault behind the last item that a reader wants, when no item may follow it. -/
def ArrayEnd.final : ArrayEnd → Option Fault
  | .closed => none
  | .comma => some .trailingComma
  | .commaTextEnd => some .trailingCharacters
  | .stray => some .trailingCharacters
  | .textEnd => some .endInArray

/-- The fault that a reader of the members meets behind the last one. -/
def ObjectEnd.asked : ObjectEnd → Option Fault
  | .closed => none
  | .comma => some .trailingComma
  | .commaTextEnd => some .endInValue
  | .noName => some .nameNotString
  | .brokenName f _ => some f
  | .stray => some .expectedCommaOrBrace
  | .textEnd => some .endInObject

def ObjectEnd.passed : ObjectEnd → Option Fault
  | .closed => none
  | .comma => some .nameNotString
  | .commaTextEnd => some .endInObject
  | .noName => some .nameNotString
  | .brokenName _ f => some f
  | .stray => some .expectedCommaOrBrace
  | .textEnd => some .endInObject

inductive Draft where
  | null
  | boolean (b : Bool)
  | number (value : Except Fault Number)
  | string (value : Except Fault String)
  | array (items : List Draft) (ending : ArrayEnd)
  | object (members : List (Except Fault String × Draft)) (ending : ObjectEnd)
  /-- No value can be read here. One who passes over it need not meet a fault. -/
  | broken (asked : Fault) (passed : Option Fault)

/-- A whole text: the draft of its value, and whether anything follows that value. -/
structure Document where
  root : Draft
  trailing : Bool

namespace Draft

mutual

/-- The value that a draft stands for, or the first fault in the order of the text. -/
def read : Draft → Except Fault Json
  | .null => .ok .null
  | .boolean b => .ok (.boolean b)
  | .number v => v.map .number
  | .string v => v.map .string
  | .array items ending => do
      let vs ← readItems items
      match ending.asked with
      | some f => .error f
      | none => .ok (.array vs)
  | .object members ending => do
      let ms ← readMembers members
      match ending.asked with
      | some f => .error f
      | none => .ok (.object ms)
  | .broken f _ => .error f

def readItems : List Draft → Except Fault (List Json)
  | [] => .ok []
  | d :: rest => do
      let v ← read d
      let vs ← readItems rest
      return v :: vs

def readMembers : List (Except Fault String × Draft) → Except Fault (List (String × Json))
  | [] => .ok []
  | (name, d) :: rest => do
      let name ← name
      let v ← read d
      let ms ← readMembers rest
      return (name, v) :: ms

end

mutual

/-- The first fault that is met when the draft is passed over. Strings and numerals need no value. -/
def passed : Draft → Option Fault
  | .null => none
  | .boolean _ => none
  | .number _ => none
  | .string _ => none
  | .array items ending => (passedItems items).or ending.passed
  | .object members ending => (passedMembers members).or ending.passed
  | .broken _ f => f

def passedItems : List Draft → Option Fault
  | [] => none
  | d :: rest => (passed d).or (passedItems rest)

def passedMembers : List (Except Fault String × Draft) → Option Fault
  | [] => none
  | (_, d) :: rest => (passed d).or (passedMembers rest)

end

mutual

def ofJson : Json → Draft
  | .null => .null
  | .boolean b => .boolean b
  | .number n => .number (.ok n)
  | .string s => .string (.ok s)
  | .array items => .array (ofItems items) .closed
  | .object members => .object (ofMembers members) .closed

def ofItems : List Json → List Draft
  | [] => []
  | v :: rest => ofJson v :: ofItems rest

def ofMembers : List (String × Json) → List (Except Fault String × Draft)
  | [] => []
  | (name, v) :: rest => (.ok name, ofJson v) :: ofMembers rest

end

mutual

theorem read_ofJson : ∀ v : Json, (ofJson v).read = .ok v
  | .null => rfl
  | .boolean _ => rfl
  | .number _ => rfl
  | .string _ => rfl
  | .array items => by
      simp only [ofJson, read, readItems_ofItems items]
      rfl
  | .object members => by
      simp only [ofJson, read, readMembers_ofMembers members]
      rfl

theorem readItems_ofItems : ∀ items : List Json, readItems (ofItems items) = .ok items
  | [] => rfl
  | v :: rest => by
      simp only [ofItems, readItems, read_ofJson v, readItems_ofItems rest]
      rfl

theorem readMembers_ofMembers :
    ∀ members : List (String × Json), readMembers (ofMembers members) = .ok members
  | [] => rfl
  | (name, v) :: rest => by
      simp only [ofMembers, readMembers, read_ofJson v, readMembers_ofMembers rest]
      rfl

end

end Draft

/-- An array or object that is still open. Its items or members stand last one first. -/
inductive Frame where
  | array (items : List Draft)
  | object (members : List (Except Fault String × Draft)) (name : Except Fault String)

/-- How many arrays and objects may be open at once where a value is asked for. -/
def nestingLimit : Nat := 127

/-- What the machine expects next. The frames are the open arrays and objects, innermost first. -/
inductive Scan where
  | value (frames : List Frame)
  | firstItem (frames : List Frame)
  | nextItem (items : List Draft) (frames : List Frame)
  | afterItem (items : List Draft) (frames : List Frame)
  | firstName (frames : List Frame)
  | nextName (members : List (Except Fault String × Draft)) (frames : List Frame)
  | colon (members : List (Except Fault String × Draft)) (name : Except Fault String)
      (frames : List Frame)
  | afterMember (members : List (Except Fault String × Draft)) (frames : List Frame)
  | ended (document : Document)

namespace Scan

/-- Whether one more array or object may be open. -/
def hasRoom (frames : List Frame) : Bool :=
  (frames.drop (nestingLimit - 1)).isEmpty

theorem hasRoom_iff {frames : List Frame} :
    hasRoom frames = true ↔ frames.length < nestingLimit := by
  simp only [hasRoom, List.isEmpty_iff, List.drop_eq_nil_iff, nestingLimit]
  omega

/-- The draft `d` of an array or object inside the frames. -/
def nested (d : Draft) (frames : List Frame) : Draft :=
  if hasRoom frames then d else .broken .nestingTooDeep d.passed

/-- The draft of a text that stops in `d` while the frames are open. -/
def enclose (d : Draft) : List Frame → Draft
  | [] => d
  | .array items :: frames => enclose (nested (.array (items.reverse ++ [d]) .textEnd) frames) frames
  | .object members name :: frames =>
      enclose (nested (.object (members.reverse ++ [(name, d)]) .textEnd) frames) frames

def stop (d : Draft) (frames : List Frame) : Scan :=
  .ended ⟨enclose d frames, false⟩

def stopInside (d : Draft) (frames : List Frame) : Scan :=
  stop (nested d frames) frames

def complete (d : Draft) : List Frame → Scan
  | [] => .ended ⟨d, false⟩
  | .array items :: frames => .afterItem (d :: items) frames
  | .object members name :: frames => .afterMember ((name, d) :: members) frames

def close (d : Draft) (frames : List Frame) : Scan :=
  complete (nested d frames) frames

def startValue (frames : List Frame) : Token → Scan
  | .null => complete .null frames
  | .boolean b => complete (.boolean b) frames
  | .number v => complete (.number v) frames
  | .string v => complete (.string v) frames
  | .leftBracket => .firstItem frames
  | .leftBrace => .firstName frames
  | .broken asked passed => stop (.broken asked (some passed)) frames
  | .brokenString asked passed => stop (.broken asked (some passed)) frames
  | .rightBrace => stop (.broken .expectedValue (some .expectedValue)) frames
  | .rightBracket => stop (.broken .expectedValue (some .expectedValue)) frames
  | .comma => stop (.broken .expectedValue (some .expectedValue)) frames
  | .colon => stop (.broken .expectedValue (some .expectedValue)) frames

def startName (members : List (Except Fault String × Draft)) (frames : List Frame) : Token → Scan
  | .string name => .colon members name frames
  | .brokenString asked passed =>
      stopInside (.object members.reverse (.brokenName asked passed)) frames
  | _ => stopInside (.object members.reverse .noName) frames

def step : Scan → Token → Scan
  | .value frames, t => startValue frames t
  | .firstItem frames, .rightBracket => close (.array [] .closed) frames
  | .firstItem frames, t => startValue (.array [] :: frames) t
  | .nextItem items frames, .rightBracket => stopInside (.array items.reverse .comma) frames
  | .nextItem items frames, t => startValue (.array items :: frames) t
  | .afterItem items frames, .comma => .nextItem items frames
  | .afterItem items frames, .rightBracket => close (.array items.reverse .closed) frames
  | .afterItem items frames, _ => stopInside (.array items.reverse .stray) frames
  | .firstName frames, .rightBrace => close (.object [] .closed) frames
  | .firstName frames, t => startName [] frames t
  | .nextName members frames, .rightBrace => stopInside (.object members.reverse .comma) frames
  | .nextName members frames, t => startName members frames t
  | .colon members name frames, .colon => .value (.object members name :: frames)
  | .colon members name frames, _ =>
      stop (.broken .expectedColon (some .expectedColon)) (.object members name :: frames)
  | .afterMember members frames, .comma => .nextName members frames
  | .afterMember members frames, .rightBrace => close (.object members.reverse .closed) frames
  | .afterMember members frames, _ => stopInside (.object members.reverse .stray) frames
  | .ended document, _ => .ended { document with trailing := true }

/-- The draft when the text ends before its value does. -/
def unfinished (d : Draft) (frames : List Frame) : Document :=
  ⟨enclose d frames, false⟩

def finish : Scan → Document
  | .value frames => unfinished (.broken .endInValue (some .endInValue)) frames
  | .firstItem frames => unfinished (nested (.array [] .textEnd) frames) frames
  | .nextItem items frames => unfinished (nested (.array items.reverse .commaTextEnd) frames) frames
  | .afterItem items frames => unfinished (nested (.array items.reverse .textEnd) frames) frames
  | .firstName frames => unfinished (nested (.object [] .textEnd) frames) frames
  | .nextName members frames =>
      unfinished (nested (.object members.reverse .commaTextEnd) frames) frames
  | .colon members name frames =>
      unfinished (.broken .endInObject (some .endInObject)) (.object members name :: frames)
  | .afterMember members frames => unfinished (nested (.object members.reverse .textEnd) frames) frames
  | .ended document => document

end Scan

def Document.ofText (t : Text) : Document :=
  ((tokens t).foldl Scan.step (.value [])).finish

def Document.read (d : Document) : Except Fault Json := do
  let v ← d.root.read
  if d.trailing then .error .trailingCharacters else .ok v

end GrammarShapes.Json
