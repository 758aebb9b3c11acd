import TokenLang.Binary64

/-!
The double that a decimal numeral stands for. Nineteen significant digits settle
nearly every numeral: if only zeros follow them, or if rounding them and rounding
the next number of nineteen digits give the same double, that double is the answer.
Otherwise the first eight hundred digits decide, and of the digits after them it
matters only whether one is not zero. A whole part is never taken to have more than
these eight hundred digits, so the answer to a numeral with a longer one can be off
by a power of ten.
-/

set_option autoImplicit false
set_option relaxedAutoImplicit false

namespace TokenLang.Decimal.Nearest

/-- How many significant digits the estimate looks at. -/
def estimated : Nat := 19

/-- How many significant digits are looked at in all. -/
def kept : Nat := 800

/-- The number that decimal digits spell, the most significant first. -/
def ofDigits (digits : List Nat) : Nat := digits.foldl (fun n d ↦ n * 10 + d) 0

/-- The bits of the double nearest to `n * 10 ^ exponent`. Far beyond the range of
doubles the power of ten is not computed. -/
def roundDecimal (n : Nat) (exponent : Int) : Nat :=
  let size := ((Nat.toDigits 10 n).length : Int) + exponent
  if n = 0 ∨ size < -330 then 0
  else if 320 < size then Binary64.infinityBits
  else if 0 ≤ exponent then Binary64.roundRatio (n * Nat.pow 10 exponent.toNat) 1
  else Binary64.roundRatio n (Nat.pow 10 (-exponent).toNat)

/-- A numeral by its significant digits: leading zeros are gone, and the first
`whole` of the digits stand before the point. Zeros between the point and the first
digit are counted in `exponent`. -/
structure Significant where
  digits : List Nat
  whole : Nat
  exponent : Int

/-- The numeral with these digits around its point, times `10 ^ exponent`. -/
def Significant.of (whole fraction : List Nat) (exponent : Int) : Significant :=
  match whole.dropWhile (· == 0) with
  | [] =>
    let digits := fraction.dropWhile (· == 0)
    ⟨digits, 0, exponent - ((fraction.length - digits.length : Nat) : Int)⟩
  | d :: rest => ⟨d :: rest ++ fraction, (d :: rest).length, exponent⟩

namespace Significant

/-- The first `count` digits as a number, and the exponent of its last digit if the
point stands after the first `whole` digits. -/
def leading (s : Significant) (count whole : Nat) : Nat × Int :=
  let digits := s.digits.take count
  (ofDigits digits, s.exponent + whole - digits.length)

/-- Whether a digit other than zero follows the first `count` digits. -/
def goesOn (s : Significant) (count : Nat) : Bool := (s.digits.drop count).any (· != 0)

/-- The bits that the first digits settle, if they do. -/
def estimate? (s : Significant) : Option Nat :=
  let (n, exponent) := s.leading estimated s.whole
  let low := roundDecimal n exponent
  if s.goesOn estimated && low != roundDecimal (n + 1) exponent then none else some low

/-- The bits by the digits that are kept. A digit that is not zero after these puts
the number strictly between two neighbours of their grid, where no double and no
midpoint of two doubles lies. -/
def decide (s : Significant) : Nat :=
  let (n, exponent) := s.leading kept (min s.whole kept)
  if s.goesOn kept then roundDecimal (n * 10 + 1) (exponent - 1) else roundDecimal n exponent

def bits (s : Significant) : Nat :=
  match s.estimate? with
  | some bits => bits
  | none => s.decide

end Significant

end TokenLang.Decimal.Nearest
