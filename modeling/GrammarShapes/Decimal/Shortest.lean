set_option autoImplicit false

/-! # The shortest decimal of a binary number

A finite binary64 number stands for all reals that round to it. Its shortest decimal is the number with
the fewest significant digits among those reals, and of several the one nearest to the number. Two may be
equally near; which of them is taken is part of the layout. Every comparison is made between natural
numbers.
-/

namespace GrammarShapes.Decimal

/-- What the sixty-four bits of a number say, its sign apart. -/
inductive Magnitude where
  | zero
  /-- The number `mantissa * 2 ^ exponent`; `narrow` holds when the next smaller number is only half as
  far away as the next greater one. -/
  | finite (mantissa : Nat) (exponent : Int) (narrow : Bool)
  | infinite
  | undefined
deriving DecidableEq

def isNegative (bits : UInt64) : Bool :=
  Nat.pow 2 63 ≤ bits.toNat

def Magnitude.ofBits (bits : UInt64) : Magnitude :=
  let field : Nat := bits.toNat / Nat.pow 2 52 % Nat.pow 2 11
  let fraction : Nat := bits.toNat % Nat.pow 2 52
  if field = Nat.pow 2 11 - 1 then if fraction = 0 then .infinite else .undefined
  else if field = 0 then if fraction = 0 then .zero else .finite fraction (-1074) false
  else .finite (Nat.pow 2 52 + fraction) ((field : Int) - 1075) (fraction = 0 && 1 < field)

structure Scientific where
  digits : Nat
  exponent : Int
deriving DecidableEq

def compareScaled (c : Nat) (k : Int) (l : Nat) (p : Int) : Ordering :=
  compare (c * Nat.pow 10 k.toNat * Nat.pow 2 (-p).toNat) (l * Nat.pow 2 p.toNat * Nat.pow 10 (-k).toNat)

/-- The exponent `e` with `10 ^ (e - 1) ≤ n / d < 10 ^ e`, for a quotient above `10 ^ (-400)`. -/
def decimalOrder (n d : Nat) : Int :=
  if d ≤ n then (Nat.toDigits 10 (n / d)).length
  else
    match (List.range 400).find? fun j => d ≤ n * Nat.pow 10 (j + 1) with
    | some j => -(j : Int)
    | none => -400

/-- Which of two equally near neighbours is taken. -/
inductive Tie where
  | even
  | upper
deriving DecidableEq

/-- The one that is taken of `below` and the number after it. -/
def Tie.choose (tie : Tie) (below : Nat) : Nat :=
  match tie with
  | .even => if below % 2 = 0 then below else below + 1
  | .upper => below + 1

/-- The nearer of the two neighbours of `l * 2 ^ p` on the grid of multiples of `10 ^ k`, if one of them
lies between `low * 2 ^ p` and `high * 2 ^ p`, the ends counting when `ends` holds. -/
def nearestOnGrid (tie : Tie) (l low high : Nat) (p : Int) (ends : Bool) (k : Int) : Option Nat :=
  let below := (l * Nat.pow 2 p.toNat * Nat.pow 10 (-k).toNat) / (Nat.pow 10 k.toNat * Nat.pow 2 (-p).toNat)
  let fits (c : Nat) : Bool :=
    match compareScaled c k low p, compareScaled c k high p with
    | .gt, .lt => true
    | .eq, _ => ends
    | _, .eq => ends
    | _, _ => false
  match fits below && below != 0, fits (below + 1) with
  | true, false => some below
  | false, true => some (below + 1)
  | false, false => none
  | true, true =>
      match compareScaled (2 * below + 1) k (2 * l) p with
      | .lt => some (below + 1)
      | .gt => some below
      | .eq => some (tie.choose below)

/-- The same number without a last digit zero. On the coarsest grid the upper neighbour of a number just
below a power of ten is that power. -/
def Scientific.reduced (x : Scientific) : Scientific :=
  if x.digits % 10 = 0 then ⟨x.digits / 10, x.exponent + 1⟩ else x

def shortest (tie : Tie) (mantissa : Nat) (exponent : Int) (narrow : Bool) : Scientific :=
  let p := exponent - 2
  let l := 4 * mantissa
  let low := if narrow then l - 1 else l - 2
  let order := decimalOrder (l * Nat.pow 2 p.toNat) (Nat.pow 2 (-p).toNat)
  let onGrid (n : Nat) : Option Scientific :=
    let k := order - n
    (nearestOnGrid tie l low (l + 2) p (mantissa % 2 = 0) k).map fun c =>
      Scientific.reduced ⟨c, k⟩
  ((List.range 17).findSome? fun n => onGrid (n + 1)).getD ⟨0, 0⟩

/-- How a number is laid out: the least and the greatest order for which it is written without an
exponent, where there are such bounds, and how its last digit is chosen in a tie. -/
structure Layout where
  least : Option Int
  greatest : Option Int
  tie : Tie

/-- The layout that never uses an exponent. -/
def Layout.positional : Layout := ⟨none, none, .upper⟩

/-- The layout that goes over to an exponent below `0.00001` and from `10 ^ 16` on. -/
def Layout.mixed : Layout := ⟨some (-4), some 16, .even⟩

/-- The decimal as text, with at least one digit on each side of a point when there is no exponent, and
with a sign before every exponent. -/
def Layout.write (layout : Layout) (x : Scientific) : List Char :=
  let digits := Nat.toDigits 10 x.digits
  let order : Int := digits.length + x.exponent
  if layout.least.all (· ≤ order) && layout.greatest.all (order ≤ ·) then
    if 0 ≤ x.exponent then digits ++ List.replicate x.exponent.toNat '0' ++ ['.', '0']
    else if 0 < order then digits.take order.toNat ++ '.' :: digits.drop order.toNat
    else ['0', '.'] ++ List.replicate (-order).toNat '0' ++ digits
  else
    let tail := if digits.length = 1 then [] else '.' :: digits.drop 1
    let power := order - 1
    digits.take 1 ++ tail ++ 'e' ::
      (if power < 0 then '-' else '+') :: Nat.toDigits 10 power.natAbs

def Layout.writeBits (layout : Layout) (bits : UInt64) : String :=
  let sign := if isNegative bits then ['-'] else []
  String.ofList <|
    match Magnitude.ofBits bits with
    | .zero => sign ++ ['0', '.', '0']
    | .finite m e narrow => sign ++ layout.write (shortest layout.tie m e narrow)
    | .infinite => sign ++ ['i', 'n', 'f']
    | .undefined => ['N', 'a', 'N']

end GrammarShapes.Decimal
