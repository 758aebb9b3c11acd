import TokenLang.Eval.HostCode

/-!
Envoys. An envoy sees the buffer after it and gives the tokens that take its place,
together with what is left of that buffer. Quoting and unquoting belong to the form
after them; in front of a closing bracket, or at the end, they vanish.
-/

set_option autoImplicit false
set_option relaxedAutoImplicit false

namespace TokenLang

namespace Token

/-- What unquoting puts in place of a token: the contents of a quote, the name of an
atom, or the token itself. -/
def unwrapped : Token → List Token
  | .done (.quote items) _ => items
  | .done (.atom name) _ => [.symbol name none]
  | t => [t]

/-- What a call of an expander puts in place of its result: the elements of a list
or quote, the name of an atom, nothing for null, or the result itself. -/
def spliced (t : Token) : List Token :=
  match t.value? with
  | none => []
  | some .null => []
  | some (.list items) => items
  | some (.quote items) => items
  | some (.atom name) => [.symbol name none]
  | some _ => [t]

end Token

/-- What the last of several tokens puts in place of a call. -/
def splicedLast (tokens : List Token) : List Token :=
  match tokens.getLast? with
  | some t => t.spliced
  | none => []

namespace Envoy

/-- Quotes the form after the marker. -/
def quoteNext (id : ScopeId) (after : List Token) : EvalM (List Token × List Token) := do
  let (form, rest) ← Evaluator.cut id after
  return ([Form.quote form], rest)

/-- Unquotes what stands after the marker: a bound name by its binding, any other
form by its value. -/
def unquoteNext (ev : Evaluator) (id : ScopeId) (t : Token) (rest : List Token) :
    EvalM (List Token × List Token) := do
  let s ← EvalM.scope id
  if t.isSymbol && !s.isMarker t then
    match s.get? t.content with
    | some bound => return (bound.unwrapped, rest)
    | none => return ([], t :: rest)
  else
    match ← ev.next id (t :: rest) with
    | (some v, rest) => return (v.unwrapped, rest)
    | (none, rest) => return ([], rest)

/-- What an envoy of the host puts in its place. -/
def ofHost (ev : Evaluator) (fuel : Nat) (id : ScopeId) (key : String) (held : List Token) :
    EvalM (List Token) := do
  ((← EvalM.host).envoy key held).run ev fuel id

def apply (ev : Evaluator) (fuel : Nat) (id : ScopeId) (e : Envoy) (after : List Token) :
    EvalM (List Token × List Token) :=
  match e, after with
  | .splice tokens, _ => return (tokens, after)
  | .host key held, _ => return (← ofHost ev fuel id key held, after)
  | .mutant _ scope body, _ => return (splicedLast (← ev.reduce fuel scope body), after)
  | .quote, t :: _ => if t.isClosing then return ([], after) else quoteNext id after
  | .unquote, t :: rest => if t.isClosing then return ([], after) else unquoteNext ev id t rest
  | .quote, [] | .unquote, [] => return ([], [])

end Envoy

end TokenLang
