import TokenLang.Binary64

/-!
The fewest decimal digits that read back as a given double. The reals that round
to a double form an interval around it; the first decimal grid, from coarse to
fine, that has a point in the interval gives the digits, and of two such points the
nearer one is taken, or the even one when neither is nearer.
-/

set_option autoImplicit false
set_option relaxedAutoImplicit false

namespace TokenLang.Decimal

/-- The decimal number `0.d₁d₂… * 10 ^ point`, whose digits have no zero at either
end. Zero has no digits. -/
structure Digits where
  digits : List Nat
  point : Int
deriving DecidableEq, Inhabited

namespace Shortest

/-- The interval of the reals that round to a positive double, over a common
denominator, with the double itself inside. -/
structure Interval where
  low : Nat
  value : Nat
  high : Nat
  denominator : Nat
  /-- Whether the two ends belong to it. -/
  closed : Bool

/-- Halfway to both neighbours. Just above a power of two the neighbour below is
nearer by half. -/
def interval (mantissa : Nat) (exponent : Int) : Interval :=
  let (n, d) := Binary64.scaled 1 (exponent - 2)
  let below := if mantissa = Binary64.hidden ∧ Binary64.leastExponent < exponent then 1 else 2
  ⟨(4 * mantissa - below) * n, 4 * mantissa * n, (4 * mantissa + 2) * n, d, mantissa % 2 == 0⟩

def Interval.has (i : Interval) (n d : Nat) : Bool :=
  let lower := i.low * d
  let point := n * i.denominator
  let upper := i.high * d
  if i.closed then lower ≤ point && point ≤ upper else lower < point && point < upper

/-- The least power of ten above the ratio of two positive numbers. -/
def decimalPoint (n d : Nat) : Int :=
  if d ≤ n then ((Nat.toDigits 10 (n / d)).length : Int)
  else 1 - ((Nat.toDigits 10 ((d - 1) / n)).length : Int)

/-- The ratio counted in units of `10 ^ exponent`, as a ratio. -/
def inUnits (n d : Nat) (exponent : Int) : Nat × Nat :=
  if 0 ≤ exponent then (n, d * Nat.pow 10 exponent.toNat)
  else (n * Nat.pow 10 (-exponent).toNat, d)

/-- Whether so many units of `10 ^ exponent` lie in the interval. -/
def Interval.hasUnits (i : Interval) (count : Nat) (exponent : Int) : Bool :=
  if 0 ≤ exponent then i.has (count * Nat.pow 10 exponent.toNat) 1
  else i.has count (Nat.pow 10 (-exponent).toNat)

/-- The point of the grid of multiples of `10 ^ exponent` that stands for the
double, if the grid has one in the interval. -/
def Interval.onGrid? (i : Interval) (exponent : Int) : Option Nat :=
  let (n, d) := inUnits i.value i.denominator exponent
  let down := n / d
  match i.hasUnits down exponent, i.hasUnits (down + 1) exponent with
  | true, true => some (Binary64.roundDiv n d)
  | true, false => some down
  | false, true => some (down + 1)
  | false, false => none

/-- The coarsest grid that has a point in the interval, among the grids of `place`
down to `place - count + 1`. -/
def Interval.search (i : Interval) : Nat → Int → Nat × Int
  | 0, place => (0, place)
  | count + 1, place =>
    match i.onGrid? place with
    | some units => (units, place)
    | none => i.search count (place - 1)

/-- Seventeen digits always suffice. -/
def mostDigits : Nat := 17

def trimZeros (digits : List Nat) : List Nat := (digits.reverse.dropWhile (· == 0)).reverse

def digitsOf (n : Nat) : List Nat := (Nat.toDigits 10 n).map fun c ↦ c.toNat - 48

/-- So many units of `10 ^ exponent`, digit by digit. -/
def ofUnits (units : Nat) (exponent : Int) : Digits :=
  if units = 0 then ⟨[], 0⟩
  else
    let digits := digitsOf units
    ⟨trimZeros digits, (digits.length : Int) + exponent⟩

/-- The digits of a finite positive magnitude. -/
def ofParts (mantissa : Nat) (exponent : Int) : Digits :=
  if mantissa = 0 then ⟨[], 0⟩
  else
    let i := interval mantissa exponent
    let (units, place) := i.search mostDigits (decimalPoint i.value i.denominator - 1)
    ofUnits units place

end Shortest

end TokenLang.Decimal
