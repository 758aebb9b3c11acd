import TokenLang.Failure
import TokenLang.Number
import TokenLang.Value.Equal

/-!
The order of values. Strings, characters and numbers are ordered among their own
kind; all other pairs, and those with a float that is not a number, have no order.
-/

set_option autoImplicit false
set_option relaxedAutoImplicit false

namespace TokenLang

namespace Number

def compare? : Number → Number → Option Ordering
  | .int x, .int y => some (if x < y then .lt else if y < x then .gt else .eq)
  | a, b =>
    let x := a.toFloat
    let y := b.toFloat
    if x.isNaN || y.isNaN then none
    else some (if x < y then .lt else if y < x then .gt else .eq)

end Number

namespace Value

/-- The difference of two characters as code points of 32 bits, which wraps around. -/
def charDifference (a b : Char) : Int32 := a.val.toInt32 - b.val.toInt32

/-- The order of two characters by the sign of their difference. -/
def compareChars (a b : Char) : Ordering :=
  let difference := charDifference a b
  if difference < 0 then .lt else if 0 < difference then .gt else .eq

def compare? : Value → Value → Option Ordering
  | .string a, .string b => some (if a < b then .lt else if b < a then .gt else .eq)
  | .char a, .char b => some (compareChars a b)
  | a, b =>
    match a.number?, b.number? with
    | some x, some y => x.compare? y
    | _, _ => none

end Value

namespace Comparison

/-- Whether an order satisfies a comparison. Equality is not decided by order. -/
def admits : Comparison → Ordering → Bool
  | .less, o => o == .lt
  | .lessEqual, o => o != .gt
  | .greater, o => o == .gt
  | .greaterEqual, o => o != .lt
  | .equal, _ | .different, _ => false

def holds (op : Comparison) (a b : Value) : Bool :=
  match a.compare? b with
  | some o => op.admits o
  | none => false

/-- Whether each neighbouring pair of arguments satisfies a comparison. -/
def holdsAlong (op : Comparison) : List Token → Except Stop Bool
  | a :: b :: rest => do
    if op.holds (← a.payload) (← b.payload) then holdsAlong op (b :: rest) else return false
  | _ => .ok true

/-- Whether every argument equals the first. -/
def allSame : List Token → Bool
  | first :: rest => rest.all fun t ↦ Value.equal? first.value? t.value?
  | [] => true

def test (op : Comparison) (args : List Token) : Except Stop Bool :=
  match op with
  | .equal => .ok (args.length < 2 || allSame args)
  | .different => .ok (2 ≤ args.length && !allSame args)
  | _ => holdsAlong op args

/-- The first of the arguments that no other one beats, searched from the left. -/
def best (op : Comparison) : Token → List Token → Except Stop Token
  | champion, [] => .ok champion
  | champion, t :: rest => do
    if op.holds (← t.payload) (← champion.payload) then best op t rest
    else best op champion rest

end Comparison

end TokenLang
