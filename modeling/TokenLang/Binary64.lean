/-!
Double-precision numbers taken apart and put together. A finite double is a signed
mantissa times a power of two; rounding a ratio of natural numbers to the nearest
double, a half going to the even mantissa, is the one way back. Conversions and
the remainder are exact in natural numbers before that rounding.
-/

set_option autoImplicit false
set_option relaxedAutoImplicit false

namespace TokenLang.Binary64

/-- The exponent of the smallest positive double, `2 ^ leastExponent`. -/
def leastExponent : Int := -1074

/-- Mantissas of normal doubles lie from here, `2 ^ 52`, to just below its double. -/
def hidden : Nat := 0x10000000000000

/-- The weight of the sign among the bits, `2 ^ 63`. -/
def signWeight : Nat := 0x8000000000000000

/-- The bits of positive infinity. -/
def infinityBits : Nat := 0x7ff * hidden

inductive View where
  | nan
  | infinite (negative : Bool)
  /-- The number `mantissa * 2 ^ exponent` with a sign. -/
  | finite (negative : Bool) (mantissa : Nat) (exponent : Int)
deriving DecidableEq

def viewBits (bits : Nat) : View :=
  let negative := bits / signWeight % 2 == 1
  let biased := bits / hidden % 2048
  let fraction := bits % hidden
  if biased = 2047 then
    if fraction = 0 then .infinite negative else .nan
  else if biased = 0 then .finite negative fraction leastExponent
  else .finite negative (hidden + fraction) (leastExponent + (biased - 1 : Nat))

def view (x : Float) : View := viewBits x.toBits.toNat

/-- A natural number times a power of two, as a ratio. -/
def scaled (n : Nat) (exponent : Int) : Nat × Nat :=
  if 0 ≤ exponent then (n * Nat.pow 2 exponent.toNat, 1) else (n, Nat.pow 2 (-exponent).toNat)

/-- The largest power of two that is at most the ratio of two positive numbers. -/
def ratioLog (n d : Nat) : Int :=
  let guess : Int := (Nat.log2 n : Int) - (Nat.log2 d : Int)
  let (a, b) := scaled d guess
  if a ≤ n * b then guess else guess - 1

/-- The nearest natural number to a ratio; a half goes to the even neighbour. -/
def roundDiv (n d : Nat) : Nat :=
  let q := n / d
  let r := n % d
  if d < 2 * r || (2 * r == d && q % 2 == 1) then q + 1 else q

/-- The bits of the double nearest to a ratio, infinity when it is too large. A
mantissa that rounding carries over to the next power of two lands on the bits of
that power, because mantissa and exponent are added. -/
def roundRatio (n d : Nat) : Nat :=
  if n = 0 then 0
  else
    let exponent := max (ratioLog n d - 52) leastExponent
    let (a, b) := scaled d exponent
    let bits := (exponent - leastExponent).toNat * hidden + roundDiv (n * b) a
    min bits infinityBits

def ofBits (negative : Bool) (magnitude : Nat) : Float :=
  Float.ofBits (UInt64.ofNat (if negative then signWeight + magnitude else magnitude))

def nan : Float := Float.ofBits 0x7ff8000000000001

def infinity (negative : Bool) : Float := ofBits negative infinityBits

/-- The double nearest to an integer. -/
def ofInt (i : Int) : Float := ofBits (i < 0) (roundRatio i.natAbs 1)

/-- The part of a magnitude before the point. -/
def wholePart (mantissa : Nat) (exponent : Int) : Nat :=
  let (n, d) := scaled mantissa exponent
  n / d

/-- Whether an integer has sixty-four bits. -/
def fitsInt64 (i : Int) : Bool := Int64.minValue.toInt ≤ i && i ≤ Int64.maxValue.toInt

/-- A double cut off toward zero. What has no such integer, or one out of range,
gives the least integer. -/
def truncate (x : Float) : Int64 :=
  match view x with
  | .finite negative mantissa exponent =>
    let whole := wholePart mantissa exponent
    let i : Int := if negative then -(whole : Int) else whole
    if fitsInt64 i then Int64.ofInt i else Int64.minValue
  | _ => Int64.minValue

/-- The remainder of a division cut off toward zero. It has the sign of the
dividend and is exact. -/
def remainder (x y : Float) : Float :=
  match view x, view y with
  | .finite negative m e, .finite _ n f =>
    if n = 0 then nan
    else
      let low := min e f
      let rest := (m * Nat.pow 2 (e - low).toNat) % (n * Nat.pow 2 (f - low).toNat)
      let (a, b) := scaled rest low
      ofBits negative (roundRatio a b)
  | .finite _ _ _, .infinite _ => x
  | _, _ => nan

end TokenLang.Binary64
