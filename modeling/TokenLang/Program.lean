import TokenLang.Eval.Scan
import TokenLang.Prelude
import TokenLang.Reader

/-!
Evaluation of buffers and texts from outside. The values that were complete before
a failure are part of the answer.
-/

set_option autoImplicit false
set_option relaxedAutoImplicit false

namespace TokenLang.Program

/-- The bound on the steps of an evaluation, far beyond what any run can take. -/
def stepBound : Nat := 1000000000000000

/-- Reduces a buffer up to its first complete token, within a bound on the steps. -/
def stepWithin (bound : Nat) : Evaluator := fun id tokens ↦ Scan.run bound id (.start tokens)

def step : Evaluator := stepWithin stepBound

/-- The values of an evaluation and the failure that ended it, if there was one. -/
structure Answer where
  values : List Value
  failure : Option Failure

/-- Evaluates a buffer within a bound on the steps. -/
def evaluateWithin (bound : Nat) (id : ScopeId) (tokens : List Token) : EvalM Answer := do
  let (out, failure) ← (stepWithin bound).collect id bound [] tokens
  return ⟨out.filterMap Token.value?, failure⟩

/-- Evaluates a buffer. -/
def evaluate (id : ScopeId) (tokens : List Token) : EvalM Answer :=
  evaluateWithin stepBound id tokens

/-- Reads a text into tokens with reference numbers of their own. -/
def read (source : List Char) : EvalM (Except Failure (List Token)) :=
  modifyGet fun w ↦
    match Lexeme.read source with
    | .ok units => (.ok (Reader.ofLexemes w.nextRef units),
        { w with nextRef := w.nextRef + units.length })
    | .error e => (.error (.of (.unreadable e)), w)

/-- Reads a text and evaluates it within a bound on the steps. -/
def evalWithin (bound : Nat) (id : ScopeId) (source : List Char) : EvalM Answer := do
  match ← read source with
  | .ok tokens => evaluateWithin bound id tokens
  | .error f => return ⟨[], some f⟩

/-- Reads and evaluates a text. -/
def eval (id : ScopeId) (source : List Char) : EvalM Answer := evalWithin stepBound id source

/-- What a step at a place of a buffer came to: the place of the complete token, if
there is one, the buffer then, and the failure, if there was one. -/
structure StepAnswer where
  place : Option Nat
  buffer : List Token
  failure : Option Failure

/-- Reduces a buffer from a place on. -/
def stepAt (id : ScopeId) (buffer : List Token) (start : Nat) : EvalM StepAnswer := do
  let before := buffer.take start
  match ← step id (buffer.drop start) with
  | .value t rest => return ⟨some start, before ++ t :: rest, none⟩
  | .nothing => return ⟨none, before, none⟩
  | .failed f left => return ⟨none, before ++ left, some f⟩

/-- Removes the form at a place of a buffer without evaluating it. -/
def skipAt (id : ScopeId) (buffer : List Token) (start : Nat) : EvalM StepAnswer := do
  match Form.split (← EvalM.scope id).isMarker (buffer.drop start) with
  | .ok (_, rest) => return ⟨some start, buffer.take start ++ rest, none⟩
  | .error f => return ⟨none, buffer, some f⟩

/-- The index just past the form at a place of a buffer. -/
def stopAt (id : ScopeId) (buffer : List Token) (start : Nat) : EvalM (Except Failure Nat) := do
  return Form.stop (← EvalM.scope id).isMarker buffer start

/-- Puts tokens in place of those from `start` to just before `stop`. -/
def replace (buffer : List Token) (start stop : Nat) (tokens : List Token) : List Token :=
  buffer.take start ++ tokens ++ buffer.drop stop

end TokenLang.Program
