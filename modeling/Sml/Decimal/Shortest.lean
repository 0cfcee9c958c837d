/-!
# The shortest decimal of a double

A positive double is `mantissa · 2^exponent`.  The reals that round to it form
an interval around it, whose ends belong to it when the mantissa is even.  The
grids of multiples of powers of ten are tried from the coarsest on, and on
each the two neighbours of the double: the first grid with a neighbour in the
interval gives the decimal of fewest digits.  If both are in it the nearer one
is taken, and of two equally near ones the greater.
-/

namespace Sml

/-- A number `mantissa · 2^exponent`. -/
structure Binary where
  mantissa : Nat
  exponent : Int
deriving DecidableEq, Repr

def Binary.ofBits (bits : UInt64) : Binary :=
  let bits := bits.toNat % Nat.pow 2 63
  let fraction := bits % Nat.pow 2 52
  let biased := bits / Nat.pow 2 52
  if biased = 0 then ⟨fraction, -1074⟩
  else ⟨Nat.pow 2 52 + fraction, Int.ofNat biased - 1075⟩

/-- A number `digits · 10^exponent`. -/
structure Decimal where
  digits : Nat
  exponent : Int
deriving DecidableEq, Repr

namespace Binary

variable (number : Binary)

/-- The ends of the interval of reals that round to the number, in quarters
of its last bit.  Below a power of two the doubles lie closer together. -/
def bounds : Nat × Nat :=
  let quarters := 4 * number.mantissa
  let below :=
    if number.mantissa = Nat.pow 2 52 ∧ -1074 < number.exponent then 1 else 2
  (quarters - below, quarters + 2)

/-- The quarter of the last bit as a fraction of `10^power`. -/
def quarterOver (power : Int) : Nat × Nat :=
  let twos := number.exponent - 2
  (Nat.pow 2 twos.toNat * Nat.pow 10 (-power).toNat,
    Nat.pow 2 (-twos).toNat * Nat.pow 10 power.toNat)

/-- The neighbour of the number among the multiples of `10^power` that
rounds to it. -/
def onGrid? (power : Int) : Option Decimal :=
  let (top, bottom) := number.quarterOver power
  let (low, high) := number.bounds
  let within (digits : Nat) : Bool :=
    if number.mantissa % 2 = 0 then
      low * top ≤ digits * bottom && digits * bottom ≤ high * top
    else low * top < digits * bottom && digits * bottom < high * top
  let value := 4 * number.mantissa * top
  let down := value / bottom
  let up := down + 1
  let upIsNear := up * bottom - value ≤ value - down * bottom
  if within up && (!within down || upIsNear) then some ⟨up, power⟩
  else if within down then some ⟨down, power⟩
  else none

def search : (grids : Nat) → (power : Int) → Decimal
  | 0, power =>
    let (top, bottom) := number.quarterOver power
    ⟨4 * number.mantissa * top / bottom, power⟩
  | grids + 1, power =>
    match number.onGrid? power with
    | some decimal => decimal
    | none => search grids (power - 1)

/-- The decimal of fewest digits that rounds to the number. -/
def shortest : Decimal :=
  if number.mantissa = 0 then ⟨0, 0⟩
  else
    let magnitude : Int := number.mantissa.log2 + number.exponent + 1
    number.search 24 (Int.fdiv (magnitude * 30103) 100000 + 1)

def isWhole : Bool :=
  0 ≤ number.exponent ||
    number.mantissa % Nat.pow 2 (-number.exponent).toNat == 0

def floor : Nat :=
  if 0 ≤ number.exponent then number.mantissa * Nat.pow 2 number.exponent.toNat
  else number.mantissa / Nat.pow 2 (-number.exponent).toNat

end Binary

private def zeros (count : Nat) : List Char := List.replicate count '0'

def Decimal.positional (decimal : Decimal) : String :=
  let digits := (toString decimal.digits).toList
  if 0 ≤ decimal.exponent then
    String.ofList (digits ++ zeros decimal.exponent.toNat)
  else
    let places := (-decimal.exponent).toNat
    let digits := zeros (places + 1 - digits.length) ++ digits
    let whole := digits.length - places
    String.ofList (digits.take whole ++ '.' :: digits.drop whole)

end Sml
