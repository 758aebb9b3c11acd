import TokenLang.Binary64
import TokenLang.Value

/-!
Numbers as arithmetic sees them: an integer or a float. Booleans count as zero and
one.
-/

set_option autoImplicit false
set_option relaxedAutoImplicit false

namespace TokenLang

inductive Number where
  | int (i : Int64)
  | float (x : Float)

namespace Number

def zero : Number := .int 0

def isFloat : Number → Bool
  | .int _ => false
  | .float _ => true

def toFloat : Number → Float
  | .int i => Binary64.ofInt i.toInt
  | .float x => x

def toInt : Number → Int64
  | .int i => i
  | .float x => Binary64.truncate x

/-- The value of a number; a float gets the reference number given for it. -/
def value (n : Number) (ref : Ref) : Value :=
  match n with
  | .int i => .int i
  | .float x => .float x ref

end Number

def Value.number? : Value → Option Number
  | .int i => some (.int i)
  | .float x _ => some (.float x)
  | .bool b => some (.int (if b then 1 else 0))
  | _ => none

end TokenLang
