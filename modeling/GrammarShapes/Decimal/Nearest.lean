set_option autoImplicit false

/-! # The binary number nearest to a decimal

Decimals far beyond the range of binary64 numbers are decided by their order alone, so that no power of
ten has to be computed for them.
-/

namespace GrammarShapes.Decimal

/-- The order of a decimal beyond which it is infinite or, on the other side, zero. -/
def orderLimit : Int := 400

/-- The binary64 number nearest to `significand * 10 ^ exponent`. -/
def nearest (significand : Nat) (exponent : Int) : Float :=
  let order : Int := (Nat.toDigits 10 significand).length + exponent
  if significand = 0 || order < -orderLimit then 0.0
  else if orderLimit < order then 1.0 / 0.0
  else Float.ofScientific significand (decide (exponent < 0)) exponent.natAbs

def nearestBits (negative : Bool) (significand : Nat) (exponent : Int) : UInt64 :=
  if negative then (-(nearest significand exponent)).toBits
  else (nearest significand exponent).toBits

end GrammarShapes.Decimal
