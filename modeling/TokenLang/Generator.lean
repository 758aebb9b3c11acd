/-!
A generator of pseudo-random numbers and the draws made from it. The same seed
gives the same draws. How a draw from a range is made out of simpler ones does not
depend on the generator, so it is said of any source of draws.
-/

set_option autoImplicit false
set_option relaxedAutoImplicit false

namespace TokenLang

/-- A source of draws, which goes on to another state with each of them. -/
structure Draws (σ : Type) where
  /-- Sixty-four bits. -/
  bits : σ → UInt64 × σ
  /-- A draw from zero to just below a positive bound. -/
  below : Int64 → σ → Int64 × σ

namespace Draws

/-- How many integers lie from `lo` to just below `hi`. -/
def span (lo hi : Int64) : UInt64 := hi.toUInt64 - lo.toUInt64

/-- The integer that lies so far above `lo`. -/
def above (lo : Int64) (offset : UInt64) : Int64 := (lo.toUInt64 + offset).toInt64

variable {σ : Type} (d : Draws σ)

/-- The first of at most `fuel` draws of sixty-four bits that is below a bound. -/
def reject (bound : UInt64) : Nat → σ → Option (UInt64 × σ)
  | 0, _ => none
  | fuel + 1, g =>
    let (bits, g) := d.bits g
    if bits < bound then some (bits, g) else reject bound fuel g

/-- A draw from `lo` to just below `hi`. A range too wide for a signed bound is
drawn from by rejection. -/
def between (fuel : Nat) (lo hi : Int64) (g : σ) : Option (Int64 × σ) :=
  let width := span lo hi
  if width ≤ Int64.maxValue.toUInt64 then
    let (offset, g) := d.below width.toInt64 g
    some (lo + offset, g)
  else (d.reject width fuel g).map fun (bits, g) ↦ (above lo bits, g)

end Draws

structure Generator where
  state : UInt64
deriving DecidableEq, Inhabited

namespace Generator

def ofSeed (seed : Int64) : Generator := ⟨seed.toUInt64⟩

/-- Sixty-four bits: the state moves by a fixed odd step and is then mixed. -/
def next (g : Generator) : UInt64 × Generator :=
  let state := g.state + 0x9e3779b97f4a7c15
  let a := (state ^^^ (state >>> 30)) * 0xbf58476d1ce4e5b9
  let b := (a ^^^ (a >>> 27)) * 0x94d049bb133111eb
  (b ^^^ (b >>> 31), ⟨state⟩)

/-- A draw from zero to just below a positive bound. -/
def below (g : Generator) (bound : Int64) : Int64 × Generator :=
  let (bits, g) := g.next
  ((bits % bound.toUInt64).toInt64, g)

def draws : Draws Generator := ⟨next, fun bound g ↦ g.below bound⟩

/-- A draw from `lo` to just below `hi`. -/
def between (g : Generator) (fuel : Nat) (lo hi : Int64) : Option (Int64 × Generator) :=
  draws.between fuel lo hi g

/-- A draw from zero to just below one, a multiple of `2 ^ -53`. -/
def unit (g : Generator) : Float × Generator :=
  let (bits, g) := g.next
  ((bits >>> 11).toFloat / 9007199254740992.0, g)

def bool (g : Generator) : Bool × Generator :=
  let (bits, g) := g.next
  (bits % 2 == 1, g)

end Generator

end TokenLang
