import TokenLang.Extension
import TokenLang.Proofs.Eval.Simulation

/-!
Sessions of a host. A host holds scopes, the root and those it derived, and makes one call after
another on them: it evaluates texts and buffers, derives scopes, changes bindings, reserves names
and defines operators. `Session.perform` is one call; it leaves its changes behind however it ends.
`Session.run` makes several calls one after another.

Calls that evaluate or change bindings keep every discipline (`HostCall.runBy_agrees`). The others
change what a discipline takes as fixed: which scopes there are, which names are reserved, which
operators are known.
-/

set_option autoImplicit false
set_option relaxedAutoImplicit false

namespace TokenLang

open Discipline
open Token (allOnly_nil allOnly_cons)

/-- What a host can do with a scope. An evaluation has a bound on its steps. -/
inductive HostCall where
  | eval (bound : Nat) (source : List Char)
  | evaluate (bound : Nat) (tokens : List Token)
  | derive
  | push (name : String) (t : Token)
  | pop (name : String)
  | assign (name : String) (t : Token)
  | define (name : String) (t : Token)
  | reserve (name : String)
  | defineOperator (name : String) (f : Callable) (op : Operator)

/-- What a host gets from a call: scopes to hold, values, and the failure of an evaluation. -/
structure Reply where
  scopes : List ScopeId
  values : List Value
  failure : Option Failure

namespace Reply

def nothing : Reply := ⟨[], [], none⟩

def ofAnswer (answer : Program.Answer) : Reply := ⟨[], answer.values, answer.failure⟩

end Reply

namespace HostCall

/-- Makes a call, with an evaluator for each bound on the steps. -/
def runBy (evaluator : Nat → Evaluator) (id : ScopeId) : HostCall → EvalM Reply
  | .eval bound source => Reply.ofAnswer <$> Program.evalBy (evaluator bound) bound id source
  | .evaluate bound tokens =>
    Reply.ofAnswer <$> Program.evaluateBy (evaluator bound) bound id tokens
  | .derive => do return ⟨[← EvalM.derive id], [], none⟩
  | .push name t => do
    EvalM.modifyScope id fun s ↦ s.push name t
    return .nothing
  | .pop name => do
    EvalM.updateScope id fun s ↦ s.popBound name
    return .nothing
  | .assign name t => do
    EvalM.updateScope id fun s ↦ s.assign name t
    return .nothing
  | .define name t => do
    EvalM.updateScope id fun s ↦ s.define name t
    return .nothing
  | .reserve name => do
    EvalM.modifyScope id fun s ↦ s.reserve name
    return .nothing
  | .defineOperator name f op => do
    Extension.installOperator id name f op
    return .nothing

/-- Makes a call. -/
def run (id : ScopeId) (call : HostCall) : EvalM Reply := call.runBy Program.stepWithin id

/-- Whether a call changes more of a world than bindings of names that are not reserved. -/
def rebuilds : HostCall → Bool
  | .derive | .reserve _ | .defineOperator _ _ _ => true
  | _ => false

/-- The tokens that a host hands over; a function without a reference number of its own. -/
def tokens : HostCall → List Token
  | .evaluate _ tokens => tokens
  | .push _ t | .assign _ t | .define _ t => [t]
  | .defineOperator _ f _ => [.stable (.function f 0)]
  | _ => []

end HostCall

/-- A captor occurs in a binding of some scope, shadowed or not. -/
def World.Binds (w : World) (c : Captor) : Prop :=
  ∃ id, ∃ binding ∈ (w.scope id).store.toList, binding.2.Captures c

/-- A world with the scopes that a host holds and the values it got. -/
structure Session where
  world : World
  held : List ScopeId
  known : List Value

namespace Session

def new (settings : Settings) (host : Host := .usual) : Session :=
  ⟨.new settings host, [World.root], []⟩

/-- One call. -/
def perform (s : Session) (id : ScopeId) (call : HostCall) : Session :=
  let world := (call.run id).after s.world
  match (call.run id).outcome s.world with
  | .ok reply => ⟨world, s.held ++ reply.scopes, s.known ++ reply.values⟩
  | .error _ => ⟨world, s.held, s.known⟩

/-- Several calls, each on a scope. -/
def run (s : Session) (steps : List (ScopeId × HostCall)) : Session :=
  steps.foldl (fun s step ↦ s.perform step.1 step.2) s

@[simp] theorem world_perform (s : Session) (id : ScopeId) (call : HostCall) :
    (s.perform id call).world = (call.run id).after s.world := by
  unfold perform
  dsimp only
  split <;> rfl

theorem perform_derive (s : Session) (id : ScopeId) : s.perform id .derive =
    ⟨(s.world.derive id).2, s.held ++ [s.world.scopes.size], s.known⟩ :=
  congrArg (Session.mk _ _) (List.append_nil s.known)

theorem perform_reserve (s : Session) (id : ScopeId) (name : String) :
    s.perform id (.reserve name) =
      ⟨s.world.modifyScope id fun scope ↦ scope.reserve name, s.held, s.known⟩ :=
  congrArg₂ (Session.mk _) (List.append_nil s.held) (List.append_nil s.known)

theorem perform_defineOperator (s : Session) (id : ScopeId) (name : String) (f : Callable)
    (op : Operator) : s.perform id (.defineOperator name f op) =
      ⟨World.modifyScope { s.world with nextRef := s.world.nextRef + 1 } id fun scope ↦
        scope.installOperator name (.stable (.function (.renamed name f) s.world.nextRef)) op,
        s.held, s.known⟩ :=
  congrArg₂ (Session.mk _) (List.append_nil s.held) (List.append_nil s.known)

/-- Captors that a host can come by: in a value it got, or in a binding of some scope. -/
def Knows (s : Session) (c : Captor) : Prop :=
  (∃ v ∈ s.known, (Token.stable v).Captures c) ∨ s.world.Binds c

/-- Calls that a host can make: on a scope that it holds, with tokens in which it puts no captors
but those it came by. -/
def Allows (s : Session) (id : ScopeId) (call : HostCall) : Prop :=
  id ∈ s.held ∧ Token.AllOnly s.Knows call.tokens

/-- Several calls that a host can make one after another. -/
def Legal : Session → List (ScopeId × HostCall) → Prop
  | _, [] => True
  | s, (id, call) :: steps => s.Allows id call ∧ (s.perform id call).Legal steps

end Session

/-! ### Calls under a discipline -/

section Agreement

variable {S : Type} [Preorder S] {D : Discipline S} {id : ScopeId} {σ : S}

namespace Reply

def IsFailed (reply : Reply) : Prop := reply.failure ≠ none

/-- Replies without scopes whose values may occur. -/
def Fit (D : Discipline S) (σ : S) (reply : Reply) : Prop :=
  reply.scopes = [] ∧ ∀ v ∈ reply.values, v.Only (D.may σ)

end Reply

/-- An answer as a reply. -/
theorem ofAnswer_agrees {x y : EvalM Program.Answer}
    (h : D.Agrees σ Program.Answer.IsFailed (Program.FitAnswer D) x y) :
    D.Agrees σ Reply.IsFailed (Reply.Fit D) (Reply.ofAnswer <$> x) (Reply.ofAnswer <$> y) := by
  rw [map_eq_pure_bind, map_eq_pure_bind]
  refine h.bind' (fun _ answer hanswer w reply hreply ↦ ?_)
    fun _ _ _ hanswer ↦ Agrees.pure ⟨rfl, hanswer⟩
  cases hreply
  exact hanswer

/-- A change without anything to report. -/
theorem nothing_agrees {x y : EvalM Unit} (h : D.Agrees σ unspoilt (fun _ _ ↦ True) x y) :
    D.Agrees σ Reply.IsFailed (Reply.Fit D) (do x; return .nothing) (do y; return .nothing) :=
  h.bind fun _ _ _ _ ↦ Agrees.pure ⟨rfl, fun _ hv ↦ absurd hv List.not_mem_nil⟩

/-- Calls that only evaluate and change bindings keep a discipline. -/
theorem HostCall.runBy_agrees {evaluator evaluator' : Nat → Evaluator}
    (hev : ∀ bound, D.Follows (evaluator bound) (evaluator' bound)) (hid : D.own σ id)
    {call : HostCall} (hcall : call.rebuilds = false) (htokens : D.AllFit σ call.tokens) :
    D.Agrees σ Reply.IsFailed (Reply.Fit D) (call.runBy evaluator id)
      (call.runBy evaluator' id) := by
  cases call with
  | eval bound source =>
    exact ofAnswer_agrees (Program.evalBy_agrees (hev bound) bound hid source)
  | evaluate bound tokens =>
    exact ofAnswer_agrees (Program.evaluateBy_agrees (hev bound) bound hid htokens)
  | push name t =>
    have ht := (allOnly_cons.mp htokens).1
    exact nothing_agrees (Agrees.modifyScope hid (Scope.rewrites_push name ht))
  | pop name => exact nothing_agrees (updateScope_agrees hid (Scope.revises_popBound name))
  | assign name t => exact nothing_agrees (rebind_agrees hid name (allOnly_cons.mp htokens).1)
  | define name t => exact nothing_agrees (bind_agrees hid name (allOnly_cons.mp htokens).1)
  | derive | reserve | defineOperator => cases hcall

end Agreement

end TokenLang
