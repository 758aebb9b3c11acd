import TokenLang.Decimal.Shortest

/-!
How doubles are written: positionally while the exponent of the first digit is
small, with a signed exponent of at least two digits otherwise, and never in a form
that could be taken for an integer.
-/

set_option autoImplicit false
set_option relaxedAutoImplicit false

namespace TokenLang.Decimal

/-- The decisions of a written form that the digits leave free. -/
structure Layout where
  /-- The least exponent of the first digit that is written positionally. -/
  leastPositional : Int
  /-- The least exponent above it that is not. -/
  leastScientific : Int
  mark : String
  exponentWidth : Nat
  nan : String
  infinity : String

/-- Numbers are positional from `0.0001` up to six digits before the point. -/
def plain : Layout := ⟨-4, 6, "e", 2, "NaN", "Infinity"⟩

namespace Layout

def digitText (digits : List Nat) : String :=
  String.ofList (digits.map fun d ↦ Char.ofNat (48 + d))

def zeros (n : Nat) : String := String.ofList (List.replicate n '0')

/-- Digits around a point, `point` of them before it. -/
def positional (d : Digits) : String :=
  let before := d.point.toNat
  let whole :=
    if before = 0 then "0"
    else digitText (d.digits.take before) ++ zeros (before - d.digits.length)
  let fraction := zeros (-d.point).toNat ++ digitText (d.digits.drop before)
  if d.digits.length ≤ before then whole ++ ".0" else whole ++ "." ++ fraction

def scientific (l : Layout) (d : Digits) : String :=
  let exponent := d.point - 1
  let size := toString exponent.natAbs
  let fraction := if d.digits.length ≤ 1 then "" else "." ++ digitText (d.digits.drop 1)
  digitText (d.digits.take 1) ++ fraction ++ l.mark ++ (if exponent < 0 then "-" else "+") ++
    zeros (l.exponentWidth - size.length) ++ size

def magnitude (l : Layout) (d : Digits) : String :=
  if d.digits.isEmpty then "0.0"
  else if d.point - 1 < l.leastPositional ∨ l.leastScientific ≤ d.point - 1 then l.scientific d
  else positional d

def write (l : Layout) (x : Float) : String :=
  match Binary64.view x with
  | .nan => l.nan
  | .infinite negative => (if negative then "-" else "") ++ l.infinity
  | .finite negative mantissa exponent =>
    (if negative then "-" else "") ++ l.magnitude (Shortest.ofParts mantissa exponent)

end Layout

end TokenLang.Decimal
