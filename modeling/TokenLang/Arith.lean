import TokenLang.Failure
import TokenLang.Number
import TokenLang.Value.Show

/-!
Arithmetic folds. Integers wrap around at sixty-four bits; one float operand makes
the result of `+ - * / %` a float from there on, while shifts and bitwise operators
cut every operand off to an integer.
-/

set_option autoImplicit false
set_option relaxedAutoImplicit false

namespace TokenLang.ArithOp

/-- What an operator does to two floats. The others work on integers only. -/
def onFloats? : ArithOp → Option (Float → Float → Float)
  | .add => some fun x y ↦ x + y
  | .sub => some fun x y ↦ x - y
  | .mul => some fun x y ↦ x * y
  | .div => some fun x y ↦ x / y
  | .rem => some Binary64.remainder
  | _ => none

/-- Whether an operator works on integers only. -/
def isIntegral (op : ArithOp) : Bool := op.onFloats?.isNone

/-- The part of a shift amount that counts. -/
def shiftAmount (y : Int64) : Int64 := y &&& 63

def onInts (op : ArithOp) (x y : Int64) : Except Stop Int64 :=
  match op with
  | .add => .ok (x + y)
  | .sub => .ok (x - y)
  | .mul => .ok (x * y)
  | .div => if y = 0 then .error (.of .divisionByZero) else .ok (x / y)
  | .rem => if y = 0 then .error (.of .divisionByZero) else .ok (x % y)
  | .shiftLeft => .ok (x <<< shiftAmount y)
  | .shiftRight => .ok (x >>> shiftAmount y)
  | .shiftRightZero => .ok (x.toUInt64 >>> (shiftAmount y).toUInt64).toInt64
  | .and => .ok (x &&& y)
  | .or => .ok (x ||| y)
  | .xor => .ok (x ^^^ y)

def apply (op : ArithOp) (a b : Number) : Except Stop Number :=
  match op.onFloats? with
  | some f =>
    if a.isFloat || b.isFloat then .ok (.float (f a.toFloat b.toFloat))
    else (op.onInts a.toInt b.toInt).map .int
  | none => (op.onInts a.toInt b.toInt).map .int

/-- The number of an argument. What is no number counts as zero, or is a failure
in a strict scope. -/
def operandOf (strict : Bool) (op : ArithOp) (t : Token) : Except Stop Number := do
  match (← t.payload).number? with
  | some n => return if op.isIntegral then .int n.toInt else n
  | none => if strict then .error (.of (.notANumber op.name t.text)) else return .zero

/-- The result without operands. -/
def start (op : ArithOp) : Number := .int (if op = .mul then 1 else 0)

/-- The result for a single operand: a difference from zero and a quotient of one
for the two operators that are not the identity on it. -/
def single (op : ArithOp) (n : Number) : Except Stop Number :=
  match op with
  | .sub => apply .sub .zero n
  | .div => apply .div (.int 1) n
  | _ => .ok n

/-- Folds further operands into a result, from left to right. -/
def foldFrom (strict : Bool) (op : ArithOp) : Number → List Token → Except Stop Number
  | acc, [] => .ok acc
  | acc, t :: rest => do
    let n ← op.operandOf strict t
    foldFrom strict op (← op.apply acc n) rest

def fold (strict : Bool) (op : ArithOp) : List Token → Except Stop Number
  | [] => .ok op.start
  | [t] => do op.single (← op.operandOf strict t)
  | t :: rest => do foldFrom strict op (← op.operandOf strict t) rest

end TokenLang.ArithOp
