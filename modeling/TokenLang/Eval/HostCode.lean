import TokenLang.Eval.Basic

/-!
Host code in a world. What it asks for happens in the scope it is called in, apart from evaluations
that are to leave it as it is, and an evaluation that it makes is one within the evaluation that
called it.
-/

set_option autoImplicit false
set_option relaxedAutoImplicit false

namespace TokenLang.Host.Code

variable {α : Type} (ev : Evaluator) (fuel : Nat) (id : ScopeId)

/-- The failure of a change, if there is one. -/
def trying (x : EvalM Unit) : EvalM (Option Failure) := do
  match ← EvalM.attempt x with
  | .ok () => return none
  | .error f => return some f

/-- Where tokens are evaluated: in the scope, or apart in one derived from it. -/
def place (apart : Bool) : EvalM ScopeId := if apart then EvalM.derive id else return id

def run : Code α → EvalM α
  | .answer a => return a
  | .fail f => EvalM.fail f
  | .look next => do run (next (← EvalM.scope id))
  | .fresh count next => do run (next (← EvalM.freshRefs count))
  | .write text next => do
    EvalM.write text
    run next
  | .memory next => do run (next (← EvalM.memory))
  | .setMemory n next => do
    EvalM.setMemory n
    run next
  | .assign name t next => do
    run (next (← trying (EvalM.updateScope id fun s ↦ s.assign name t)))
  | .define name t next => do
    run (next (← trying (EvalM.updateScope id fun s ↦ s.define name t)))
  | .evaluate apart tokens next => do
    let (out, failure) ← ev.collect (← place id apart) fuel [] tokens
    run (next (out.filterMap Token.value?) failure)

end TokenLang.Host.Code
