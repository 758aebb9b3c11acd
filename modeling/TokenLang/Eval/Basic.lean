import TokenLang.EvalM
import TokenLang.Form

/-!
What the parts of an evaluation share. Every part that has to evaluate tokens again
takes the evaluator as an argument, so that only the scan itself is recursive; and
every loop whose length the program decides takes a bound on its steps.
-/

set_option autoImplicit false
set_option relaxedAutoImplicit false

namespace TokenLang

/-- What the scan of a buffer came to. -/
inductive Reduction where
  /-- The first complete token outside all brackets, and the buffer after it. -/
  | value (t : Token) (rest : List Token)
  /-- The buffer ran out first. -/
  | nothing
  /-- A failure, and the buffer as it was then. -/
  | failed (f : Failure) (left : List Token)

/-- Reduces a buffer in a scope up to its first complete token. -/
abbrev Evaluator := ScopeId → List Token → EvalM Reduction

namespace Evaluator

variable (ev : Evaluator)

/-- Reduces a whole buffer. The tokens it gave come with the failure that ended it
early, if there was one; `done` holds those given before, last first. -/
def collect (id : ScopeId) : Nat → List Token → List Token → EvalM (List Token × Option Failure)
  | 0, _, _ => throw .exhausted
  | fuel + 1, done, tokens => do
    match ← ev id tokens with
    | .value t rest => collect id fuel (t :: done) rest
    | .nothing => return (done.reverse, none)
    | .failed f _ => return (done.reverse, some f)

/-- All tokens that a buffer reduces to. -/
def reduce (fuel : Nat) (id : ScopeId) (tokens : List Token) : EvalM (List Token) := do
  match ← ev.collect id fuel [] tokens with
  | (out, none) => return out
  | (_, some f) => EvalM.fail f

/-- The first form of the arguments and the arguments after it. -/
def cut (id : ScopeId) (args : List Token) : EvalM (List Token × List Token) := do
  EvalM.ofFailure (Form.split (← EvalM.scope id).isMarker args)

/-- All forms of the arguments. -/
def cutAll (id : ScopeId) (args : List Token) : EvalM (List (List Token)) := do
  EvalM.ofFailure (Form.splitAll (← EvalM.scope id).isMarker args)

/-- Evaluates the first form of the arguments on its own: its token, unless it left
none, and the arguments after it. -/
def next (id : ScopeId) : List Token → EvalM (Option Token × List Token)
  | [] => return (none, [])
  | args => do
    let (form, rest) ← cut id args
    match ← ev id form with
    | .value t _ => return (some t, rest)
    | .nothing => return (none, rest)
    | .failed f _ => EvalM.fail f

end Evaluator

end TokenLang
