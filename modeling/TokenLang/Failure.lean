import TokenLang.Lexeme
import TokenLang.Value

/-!
Failures of an evaluation: a cause, and the place of the token that is to blame
when that token came from a text. The first place attached to a failure stays.
-/

set_option autoImplicit false
set_option relaxedAutoImplicit false

namespace TokenLang

/-- What went wrong. Tokens and values are carried by their written form. -/
inductive Cause where
  | unexpectedClosing (bracket : String)
  | mismatched (opening closing : String)
  | neverClosed (opening : String)
  | unknownBinding (name : String) (suggestion : Option String)
  | tooManyHops (token : String)
  | arityMismatch (callee : String) (expected got : Nat)
  | reservedName (name : String)
  | notCallable (callee : String)
  | divisionByZero
  | symWithoutString
  | operandMissing (operator : String)
  | infixExpression (form : String)
  | nameMissing
  | nameExpected (token : String)
  | parametersExpected
  | badParameter (token : String)
  | loopWithoutCondition
  | repeatWithoutCount
  | notANumber (operator token : String)
  | unknownMethod (method receiver : String)
  | unreadable (error : Lexeme.Error)
  | invalidValue (text : String)
  /-- A failure that host code reports in its own words. -/
  | reported (text : String)
deriving DecidableEq, Inhabited

namespace Cause

/-- The families of causes that a caller can tell apart. -/
inductive Family where
  | unmatchedBracket
  | unknownBinding
  | indirectionOverflow
  | arityMismatch
  | reservedName
  | notCallable
  | divisionByZero
  | malformedForm
  | unknownMethod
  | unreadable (fault : Lexeme.Fault)
  | other
deriving DecidableEq, Inhabited

def family : Cause → Family
  | .unexpectedClosing _ | .mismatched _ _ | .neverClosed _ => .unmatchedBracket
  | .unknownBinding _ _ => .unknownBinding
  | .tooManyHops _ => .indirectionOverflow
  | .arityMismatch _ _ _ => .arityMismatch
  | .reservedName _ => .reservedName
  | .notCallable _ => .notCallable
  | .divisionByZero => .divisionByZero
  | .symWithoutString | .operandMissing _ | .infixExpression _ | .nameMissing
  | .nameExpected _ | .parametersExpected | .badParameter _ | .loopWithoutCondition
  | .repeatWithoutCount | .notANumber _ _ => .malformedForm
  | .unknownMethod _ _ => .unknownMethod
  | .unreadable e => .unreadable e.fault
  | .invalidValue _ | .reported _ => .other

open Text.Quoted (quote)

/-- The text of a cause, without a place. -/
def message : Cause → String
  | .unexpectedClosing bracket => "unmatched bracket: unexpected " ++ bracket
  | .mismatched opening closing =>
    "unmatched bracket: " ++ opening ++ " closed by " ++ closing
  | .neverClosed opening => "unmatched bracket: " ++ opening ++ " is never closed"
  | .unknownBinding name none => "unknown binding: " ++ quote name
  | .unknownBinding name (some near) =>
    "unknown binding: " ++ quote name ++ " (did you mean " ++ quote near ++ "?)"
  | .tooManyHops token => "indirection limit exceeded: " ++ token
  | .arityMismatch callee expected got =>
    "arity mismatch: " ++ callee ++ " takes " ++ toString expected ++ " arguments, got " ++
      toString got
  | .reservedName name => "reserved name: " ++ quote name
  | .notCallable callee => "not callable: " ++ callee
  | .divisionByZero => "division by zero"
  | .symWithoutString => "malformed form: #sym takes a string"
  | .operandMissing operator => "malformed form: " ++ operator ++ " needs two operands"
  | .infixExpression form => "malformed form: infix expression " ++ form
  | .nameMissing => "malformed form: missing name"
  | .nameExpected token => "malformed form: expected a name, got " ++ token
  | .parametersExpected => "malformed form: expected a parameter list"
  | .badParameter token => "malformed form: bad parameter " ++ token
  | .loopWithoutCondition => "malformed form: while without a condition"
  | .repeatWithoutCount => "malformed form: repeat without a count"
  | .notANumber operator token => "malformed form: " ++ operator ++ " on " ++ token
  | .unknownMethod method receiver =>
    "unknown method: " ++ quote method ++ " on " ++ receiver
  | .unreadable e => e.message
  | .invalidValue text => "invalid value " ++ text
  | .reported text => text

end Cause

structure Failure where
  cause : Cause
  position : Option Position
deriving DecidableEq, Inhabited

namespace Failure

/-- A failure without a place. -/
def of (cause : Cause) : Failure := ⟨cause, none⟩

/-- Blames a token for a failure that has no place yet. -/
def blame (f : Failure) (t : Token) : Failure :=
  match f.position with
  | some _ => f
  | none => ⟨f.cause, t.pos?⟩

/-- A failure at the place of a token. -/
def blaming (t : Token) (cause : Cause) : Failure := (of cause).blame t

def message (f : Failure) : String :=
  match f.position with
  | some p => p.text ++ ": " ++ f.cause.message
  | none => f.cause.message

end Failure

/-- Where a value was asked of a token that has none. -/
inductive Gap where
  /-- Among the tokens of a region that was handed to a varying. -/
  | region (v : Varying) (opening : Token) (inside : List Token)
  /-- In the token that a counted name is bound to. -/
  | counter (bound : Token)
  | elsewhere
deriving Inhabited

/-- Why a computation came to no answer. -/
inductive Stop where
  | failed (f : Failure)
  /-- A value was asked of a token that has none. -/
  | missingValue (gap : Gap)
  /-- The bound on the number of steps was reached. -/
  | exhausted
deriving Inhabited

namespace Stop

def of (cause : Cause) : Stop := .failed (.of cause)

end Stop

/-- The value of a token, which must have one. -/
def Token.payload (t : Token) : Except Stop Value :=
  match t.value? with
  | some v => .ok v
  | none => .error (.missingValue .elsewhere)

end TokenLang
