import GrammarShapes.Text.Digits

set_option autoImplicit false

/-! # Dates and times

A moment is a date, a time, or both, and then perhaps with the distance from universal time. It is read in
one of several spellings and written in one: a `T` between date and time, no zeros at the end of a
fraction of a second, a `Z` only where universal time itself was named.
-/

namespace GrammarShapes.Toml

structure Date where
  year : Nat
  month : Nat
  day : Nat
deriving DecidableEq

structure Time where
  hour : Nat
  minute : Nat
  second : Nat
  nanosecond : Nat
deriving DecidableEq

inductive Offset where
  | universal
  | minutes (n : Int)
deriving DecidableEq

inductive Moment where
  | date (d : Date)
  | time (t : Time)
  | both (d : Date) (t : Time) (o : Option Offset)
deriving DecidableEq

namespace Moment

/-! ## Writing -/

def padded (width n : Nat) : List Char :=
  let digits := Nat.toDigits 10 n
  List.replicate (width - digits.length) '0' ++ digits

def writeDate (d : Date) : List Char :=
  padded 4 d.year ++ '-' :: padded 2 d.month ++ '-' :: padded 2 d.day

def trimmed (digits : List Char) : List Char :=
  (digits.reverse.dropWhile (· = '0')).reverse

def writeTime (t : Time) : List Char :=
  padded 2 t.hour ++ ':' :: padded 2 t.minute ++ ':' :: padded 2 t.second ++
    if t.nanosecond = 0 then [] else '.' :: trimmed (padded 9 t.nanosecond)

def writeOffset : Offset → List Char
  | .universal => ['Z']
  | .minutes n =>
      (if n < 0 then '-' else '+') :: padded 2 (n.natAbs / 60) ++ ':' :: padded 2 (n.natAbs % 60)

def write : Moment → List Char
  | .date d => writeDate d
  | .time t => writeTime t
  | .both d t o => writeDate d ++ 'T' :: writeTime t ++ (o.map writeOffset).getD []

def text (m : Moment) : String :=
  String.ofList m.write

/-! ## Reading -/

/-- The number that exactly `count` digits denote, and what follows them. -/
def digits? (count : Nat) (cs : List Char) : Option (Nat × List Char) :=
  let ds := cs.take count
  if ds.length = count && ds.all Char.isDigit then
    some (Text.digitsValue 10 ds, cs.drop count)
  else none

/-- The same, for a number within bounds. -/
def bounded? (count least greatest : Nat) (cs : List Char) : Option (Nat × List Char) := do
  let (n, rest) ← digits? count cs
  if least ≤ n && n ≤ greatest then some (n, rest) else none

def expect? (c : Char) : List Char → Option (List Char)
  | x :: rest => if x = c then some rest else none
  | [] => none

def isLeap (year : Nat) : Bool :=
  year % 4 = 0 && (year % 100 ≠ 0 || year % 400 = 0)

def daysIn (year month : Nat) : Nat :=
  if month = 2 then if isLeap year then 29 else 28
  else if month = 4 || month = 6 || month = 9 || month = 11 then 30
  else 31

def readDate (cs : List Char) : Option (Date × List Char) := do
  let (year, cs) ← digits? 4 cs
  let (month, cs) ← bounded? 2 1 12 (← expect? '-' cs)
  let (day, cs) ← bounded? 2 1 (daysIn year month) (← expect? '-' cs)
  some (⟨year, month, day⟩, cs)

/-- The nanoseconds that the digits of a fraction denote; digits behind the ninth do not count. -/
def fraction (ds : List Char) : Nat :=
  Text.digitsValue 10 (ds.take 9 ++ List.replicate (9 - ds.length) '0')

def readFraction : List Char → Option (Nat × List Char)
  | '.' :: rest =>
      let ds := rest.takeWhile Char.isDigit
      if ds.isEmpty then none else some (fraction ds, rest.dropWhile Char.isDigit)
  | cs => some (0, cs)

def readTime (cs : List Char) : Option (Time × List Char) := do
  let (hour, cs) ← bounded? 2 0 23 cs
  let (minute, cs) ← bounded? 2 0 59 (← expect? ':' cs)
  let (second, cs) ← bounded? 2 0 60 (← expect? ':' cs)
  let (nanosecond, cs) ← readFraction cs
  some (⟨hour, minute, second, nanosecond⟩, cs)

/-- The minutes of a distance from universal time whose sign has been read. -/
def readMinutes (cs : List Char) : Option (Nat × List Char) := do
  let (hours, cs) ← bounded? 2 0 23 cs
  let (minutes, cs) ← bounded? 2 0 59 (← expect? ':' cs)
  some (60 * hours + minutes, cs)

def readOffset : List Char → Option (Option Offset × List Char)
  | [] => some (none, [])
  | c :: cs =>
      if c = 'Z' || c = 'z' then some (some .universal, cs)
      else if c = '+' then (readMinutes cs).map fun (n, cs) => (some (.minutes n), cs)
      else if c = '-' then (readMinutes cs).map fun (n, cs) => (some (.minutes (-(n : Int))), cs)
      else none

def readBoth (d : Date) (cs : List Char) : Option Moment := do
  let (t, cs) ← readTime cs
  let (o, cs) ← readOffset cs
  if cs.isEmpty then some (.both d t o) else none

def ofWord (cs : List Char) : Option Moment :=
  match readDate cs with
  | some (d, []) => some (.date d)
  | some (d, c :: rest) => if c = 'T' || c = 't' || c = ' ' then readBoth d rest else none
  | none =>
      match readTime cs with
      | some (t, []) => some (.time t)
      | _ => none

end Moment

end GrammarShapes.Toml
