import TokenLang.Number
import TokenLang.World

/-!
Computations in a world. A computation changes the world also when it stops before
it comes to an answer.
-/

set_option autoImplicit false
set_option relaxedAutoImplicit false

namespace TokenLang

/-- A computation in a world, which may stop before it comes to an answer. -/
abbrev EvalM := ExceptT Stop (StateM World)

namespace EvalM

def ofExcept {α : Type} (x : Except Stop α) : EvalM α := ExceptT.mk (pure x)

/-- A result that may be a failure already. -/
def ofFailure {α : Type} (x : Except Failure α) : EvalM α := ofExcept (x.mapError .failed)

def fail {α : Type} (f : Failure) : EvalM α := throw (.failed f)

def failWith {α : Type} (cause : Cause) : EvalM α := throw (.of cause)

def scope (id : ScopeId) : EvalM Scope := return (← get).scope id

def modifyScope (id : ScopeId) (f : Scope → Scope) : EvalM Unit :=
  modify fun w ↦ w.modifyScope id f

/-- Changes a scope unless there is a cause against it. -/
def updateScope (id : ScopeId) (f : Scope → Except Cause Scope) : EvalM Unit := do
  match f (← scope id) with
  | .ok s => modifyScope id fun _ ↦ s
  | .error cause => failWith cause

def derive (id : ScopeId) : EvalM ScopeId := modifyGet fun w ↦ w.derive id

def freshRef : EvalM Ref := modifyGet fun w ↦ (w.nextRef, { w with nextRef := w.nextRef + 1 })

/-- Takes so many reference numbers, of which the answer is the first. -/
def freshRefs (count : Nat) : EvalM Ref :=
  modifyGet fun w ↦ (w.nextRef, { w with nextRef := w.nextRef + count })

def host : EvalM Host := return (← get).host

def write (text : String) : EvalM Unit := modify fun w ↦ { w with output := w.output ++ text }

/-- What the host remembers. -/
def memory : EvalM Nat := return (← get).memory

def setMemory (memory : Nat) : EvalM Unit := modify fun w ↦ { w with memory := memory }

/-- A failure of a computation as its answer. -/
def attempt {α : Type} (x : EvalM α) : EvalM (Except Failure α) :=
  ExceptT.mk do
    match ← x.run with
    | .ok a => return .ok (.ok a)
    | .error (.failed f) => return .ok (.error f)
    | .error stop => return .error stop

/-- Says where a value was missing, unless that is known already. -/
def locating {α : Type} (gap : Gap) (x : EvalM α) : EvalM α :=
  ExceptT.mk do
    match ← x.run with
    | .error (.missingValue .elsewhere) => return .error (.missingValue gap)
    | answer => return answer

/-- Changes the world after a computation, however it ended. -/
def ensuring {α : Type} (x : EvalM α) (f : World → World) : EvalM α :=
  ExceptT.mk do
    let answer ← x.run
    modify f
    return answer

/-- Blames a token for a failure that has no place yet. -/
def blaming {α : Type} (t : Token) (x : EvalM α) : EvalM α := do
  match ← attempt x with
  | .ok a => return a
  | .error f => fail (f.blame t)

/-- The value of a number, with a reference number of its own. -/
def numberToken (n : Number) : EvalM Token := return .stable (n.value (← freshRef))

end EvalM

end TokenLang
