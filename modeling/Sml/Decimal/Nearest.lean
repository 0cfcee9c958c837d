/-!
# The double nearest to a decimal

A decimal `digits · 10^exponent` is an exact fraction.  It is scaled by a
power of two until its whole part has as many bits as a double carries, and
then rounded to the nearer whole number, a half to the even one.
-/

namespace Sml.Decimal

/-- The whole number nearest to `numerator / denominator`, a half going to
the even neighbour. -/
def roundHalfEven (numerator denominator : Nat) : Nat :=
  let quotient := numerator / denominator
  let twice := 2 * (numerator % denominator)
  if twice < denominator then quotient
  else if denominator < twice then quotient + 1
  else if quotient % 2 = 0 then quotient
  else quotient + 1

/-- The fraction `numerator / denominator · 2^-exponent`, in whole terms. -/
def scale (numerator denominator : Nat) (exponent : Int) : Nat × Nat :=
  if 0 ≤ exponent then (numerator, denominator * Nat.pow 2 exponent.toNat)
  else (numerator * Nat.pow 2 (-exponent).toNat, denominator)

def leastExponent : Int := -1074

/-- The exponent of the last bit kept when a double approximates a positive
fraction: fifty-three bits, or fewer when the fraction is very small. -/
def lastBit (numerator denominator : Nat) : Int :=
  let guess : Int :=
    (numerator.log2 : Int) - (denominator.log2 : Int) - 52
  let (top, bottom) := scale numerator denominator guess
  let exponent := if top < bottom * Nat.pow 2 52 then guess - 1 else guess
  max exponent leastExponent

/-- The bits of the double `mantissa · 2^exponent`, where the mantissa has at
most fifty-three bits, or is the next power of two. -/
def encode (mantissa : Nat) (exponent : Int) : UInt64 :=
  let (mantissa, exponent) :=
    if mantissa = Nat.pow 2 53 then (Nat.pow 2 52, exponent + 1)
    else (mantissa, exponent)
  if mantissa < Nat.pow 2 52 then UInt64.ofNat mantissa
  else
    let biased := (exponent + 1075).toNat
    if 2047 ≤ biased then UInt64.ofNat (2047 * Nat.pow 2 52)
    else UInt64.ofNat (biased * Nat.pow 2 52 + (mantissa - Nat.pow 2 52))

def nearestFraction (numerator denominator : Nat) : Float :=
  if numerator = 0 then 0.0
  else
    let exponent := lastBit numerator denominator
    let (top, bottom) := scale numerator denominator exponent
    Float.ofBits (encode (roundHalfEven top bottom) exponent)

def digitCount (n : Nat) : Nat :=
  if n = 0 then 0 else (toString n).length

/-- The double nearest to `digits · 10^exponent`.  Beyond the powers of ten
that a double can approximate it is infinite or zero. -/
def nearest (digits : Nat) (exponent : Int) : Float :=
  let magnitude := (digitCount digits : Int) + exponent
  if digits = 0 ∨ magnitude < -325 then 0.0
  else if 310 < magnitude then Float.ofBits (UInt64.ofNat (2047 * Nat.pow 2 52))
  else if 0 ≤ exponent then nearestFraction (digits * Nat.pow 10 exponent.toNat) 1
  else nearestFraction digits (Nat.pow 10 (-exponent).toNat)

end Sml.Decimal
