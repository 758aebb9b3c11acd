import TokenLang.EvalM
import TokenLang.Prelude
import TokenLang.Value.Show

/-!
What a host adds to a world from outside: values, and tokens with a behaviour of
their own.
-/

set_option autoImplicit false
set_option relaxedAutoImplicit false

namespace TokenLang

/-- The function of the usual host. -/
def Callable.tally (name : Option String) : Callable := .host name "tally"

/-- The expander of the usual host. -/
def Expander.twice : Expander := .host "twice"

/-- The object of the usual host. -/
def Object.echo : Object := .host "echo"

namespace Extension

/-- An envoy that fixed tokens take the place of. -/
def stand (tokens : List Token) : EvalM Token :=
  return .envoy (.host "stand" tokens) (← EvalM.freshRef)

/-- A varying that counts the tokens of its region. -/
def count : EvalM Token := return .varying (.host "count") (← EvalM.freshRef)

/-- A varying that reverses what is between its brackets. -/
def reverse : EvalM Token := return .varying (.host "reverse") (← EvalM.freshRef)

/-- An object that repeats the method and arguments of a call. -/
def echo : EvalM Token := return .stable (.object .echo (← EvalM.freshRef))

/-- A function that counts its arguments. -/
def tally (name : Option String) : EvalM Token :=
  return .stable (.function (.tally name) (← EvalM.freshRef))

/-- An expander that gives its arguments twice. -/
def twice : EvalM Token := return .stable (.expander .twice (← EvalM.freshRef))

/-- Installs a function under a name of its own as an operator. -/
def installOperator (id : ScopeId) (name : String) (f : Callable) (op : Operator) :
    EvalM Unit := do
  let t := Token.stable (.function (.renamed name f) (← EvalM.freshRef))
  EvalM.modifyScope id fun s ↦ s.installOperator name t op

/-- What a host may hand over as a value. -/
inductive HostValue where
  | nothing
  | bool (b : Bool)
  | int (i : Int64)
  | float (x : Float)
  | text (s : String)
  | value (v : Value)
  | tokens (items : List Token)
  | function (f : Callable)
  | expander (m : Expander)
  | object (o : Object)
  /-- Something without a counterpart, by its printed form. -/
  | foreign (printed : String)

/-- The value of what a host hands over, made with a reference number. -/
def HostValue.value? (ref : Ref) : HostValue → Except Cause Value
  | .nothing => .ok .null
  | .bool b => .ok (.bool b)
  | .int i => .ok (.int i)
  | .float x => .ok (.float x ref)
  | .text s => .ok (.string s)
  | .value v => .ok v
  | .tokens items => .ok (.list items)
  | .function f => .ok (.function f ref)
  | .expander m => .ok (.expander m ref)
  | .object o => .ok (.object o ref)
  | .foreign printed => .error (.invalidValue printed)

end Extension

end TokenLang
