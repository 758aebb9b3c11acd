import TokenLang.Arith
import TokenLang.Eval.Method
import TokenLang.Eval.Special

/-!
Calls. A function takes evaluated arguments and gives at most one token; an expander
takes its arguments as written and gives the tokens that take the place of the call.
User functions and expanders run in the scope they captured, with their parameters
bound for the time of the call, however it ends.
-/

set_option autoImplicit false
set_option relaxedAutoImplicit false

namespace TokenLang

namespace Scope

/-- Binds parameters to arguments, null where there are too few, and the rest name
to what is left over. -/
def bindParams (s : Scope) : List String → List Token → Scope
  | [], rest => s.push leftoverName (.stable (.list rest))
  | name :: params, [] => (s.push name .null).bindParams params []
  | name :: params, t :: args => (s.push name t).bindParams params args

/-- Undoes the pushes of a call, in reverse. -/
def unbindParams (s : Scope) (params : List String) : Scope :=
  params.reverse.foldl Scope.pop (s.pop leftoverName)

end Scope

variable (ev : Evaluator) (fuel : Nat)

namespace Callable

/-- The texts of the arguments as printing shows them. -/
def displays : List Token → Except Stop (List String)
  | [] => .ok []
  | t :: rest => do return (← t.payload).display :: (← displays rest)

def bool (b : Bool) : EvalM (Option Token) := return some (.stable (.bool b))

def concatenation (args : List Token) : EvalM (Option Token) := do
  return some (.stable (.string (String.join (← EvalM.ofExcept (displays args)))))

/-- Addition that begins with a string joins texts. -/
def startsWithString : List Token → Except Stop Bool
  | [] => .ok false
  | t :: _ => do
    match ← t.payload with
    | .string _ => return true
    | _ => return false

def callArith (id : ScopeId) (op : ArithOp) (args : List Token) : EvalM (Option Token) := do
  let joins ← if op = .add then EvalM.ofExcept (startsWithString args) else pure false
  if joins then concatenation args
  else
    let n ← EvalM.ofExcept (op.fold (← EvalM.scope id).strict args)
    return some (← EvalM.numberToken n)

/-- Prints the arguments with a space between each two. -/
def printLine (ending : String) (args : List Token) : EvalM (Option Token) := do
  EvalM.write (spaced (← EvalM.ofExcept (displays args)) ++ ending)
  return none

def callPrimitive (p : Primitive) (args : List Token) : EvalM (Option Token) :=
  match p, args with
  | .not, [] => bool true
  | .not, t :: _ => do bool !(← EvalM.ofExcept t.payload).truthy
  | .str, _ => concatenation args
  | .print, _ => printLine "" args
  | .println, _ => printLine "\n" args
  | .type, [] => return some (.stable (.atom Value.null.typeName))
  | .type, t :: _ => do return some (.stable (.atom (← EvalM.ofExcept t.payload).typeName))

/-- Runs the body of a user function and gives the last token it came to. -/
def callClosure (f : Callable) (scope : ScopeId) (params : List String) (body : List Token)
    (args : List Token) : EvalM (Option Token) := do
  if (← EvalM.scope scope).strict && args.length < params.length then
    EvalM.failWith (.arityMismatch f.text params.length args.length)
  EvalM.modifyScope scope fun s ↦ s.bindParams params args
  let out ← EvalM.ensuring (ev.reduce fuel scope body) fun w ↦
    w.modifyScope scope fun s ↦ s.unbindParams params
  return out.getLast?

/-- Runs the code of a function of the host. -/
def callHost (id : ScopeId) (key : String) (args : List Token) : EvalM (Option Token) := do
  ((← EvalM.host).function key args).run ev fuel id

def apply (id : ScopeId) (f : Callable) (args : List Token) : EvalM (Option Token) :=
  match f.core with
  | .arith op => callArith id op args
  | .compare op => do bool (← EvalM.ofExcept (op.test args))
  | .primitive p => callPrimitive p args
  | .closure name scope params body =>
    callClosure ev fuel (.closure name scope params body) scope params body args
  | .host _ key => callHost ev fuel id key args
  | .renamed _ _ => return none

end Callable

namespace Expander

/-- What a parameter is bound to for an argument form. A name that the caller knows
is passed by its binding; several tokens are put back wherever the parameter is
named. -/
def boundTo (caller : ScopeId) : List Token → EvalM Token
  | [t] => do
    if t.isSymbol then return ((← EvalM.scope caller).get? t.content).getD t else return t
  | form => return .envoy (.splice form) (← EvalM.freshRef)

/-- Binds the parameters to the forms and the rest name to the tokens of the forms
left over. The caller may be the very scope that is bound in. -/
def bindAll (caller scope : ScopeId) : List String → List (List Token) → EvalM Unit
  | [], rest => do
    let t := Token.envoy (.splice rest.flatten) (← EvalM.freshRef)
    EvalM.modifyScope scope fun s ↦ s.push Scope.leftoverName t
  | name :: params, [] => do
    EvalM.modifyScope scope fun s ↦ s.push name .null
    bindAll caller scope params []
  | name :: params, form :: forms => do
    let t ← boundTo caller form
    EvalM.modifyScope scope fun s ↦ s.push name t
    bindAll caller scope params forms

def expandTemplate (m : Expander) (caller scope : ScopeId) (params : List String)
    (body : List Token) (args : List Token) : EvalM (List Token) := do
  let forms ← Evaluator.cutAll caller args
  if (← EvalM.scope scope).strict && forms.length < params.length then
    EvalM.failWith (.arityMismatch m.text params.length forms.length)
  bindAll caller scope params forms
  let out ← EvalM.ensuring (ev.reduce fuel scope body) fun w ↦
    w.modifyScope scope fun s ↦ s.unbindParams params
  return splicedLast out

/-- Runs the code of an expander of the host. -/
def expandHost (id : ScopeId) (key : String) (args : List Token) : EvalM (List Token) := do
  ((← EvalM.host).expander key args).run ev fuel id

def expand (id : ScopeId) (m : Expander) (args : List Token) : EvalM (List Token) :=
  match m with
  | .special form => form.expand ev fuel id args
  | .template name scope params body =>
    expandTemplate ev fuel (.template name scope params body) id scope params body args
  | .host key => expandHost ev fuel id key args

end Expander

namespace Evaluator

/-- Calls what cannot be called: a lone value stays, anything else gives nothing, or
is a failure in a strict scope. -/
def refuse (id : ScopeId) (callee : Token) : EvalM (List Token) := do
  if (← EvalM.scope id).strict then EvalM.failWith (.notCallable callee.text) else return []

/-- Calls a method when the callee answers to methods and the first argument names
one. -/
def callMethod (id : ScopeId) (callee first : Token) (rest : List Token) :
    EvalM (List Token) := do
  let receiver ← EvalM.ofExcept callee.payload
  if Method.answers receiver then
    match Method.name? first with
    | some name => return (← Method.call ev fuel id receiver name rest).toList
    | none => refuse id callee
  else refuse id callee

def call (id : ScopeId) (callee : Token) (args : List Token) : EvalM (List Token) :=
  match callee, args with
  | .done (.function f _) _, _ => do return (← f.apply ev fuel id args).toList
  | .done (.expander m _) _, _ => m.expand ev fuel id args
  | _, [] => return [callee]
  | _, first :: rest => callMethod ev fuel id callee first rest

end Evaluator

end TokenLang
