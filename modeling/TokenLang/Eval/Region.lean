import TokenLang.Eval.Call
import TokenLang.OperatorTree

/-!
Regions and what they become. A varying is handed a bracketed region, or a quoted
text with a mode, and gives the tokens that take its place. A mode without a
varying falls back to the bracket, and a bracket without one leaves its contents.
-/

set_option autoImplicit false
set_option relaxedAutoImplicit false

namespace TokenLang

namespace Varying

variable (ev : Evaluator) (fuel : Nat) (id : ScopeId)

/-- Applies the first element to the rest. -/
def applyCall : List Token → EvalM (List Token)
  | [] => return []
  | callee :: args => ev.call fuel id callee args

/-- Quotes arguments that are written for something other than an expander. -/
def asWritten (callee : Token) (args : List Token) : EvalM (List Token) := do
  if callee.kind == .expander then return args
  else return (← Evaluator.cutAll id args).map Form.quote

/-- Evaluates the first form only and applies it to the others as written. -/
def applyQuotedCall : List Token → EvalM (List Token)
  | [] => return []
  | form => do
    match ← ev.next id form with
    | (none, _) => return []
    | (some callee, args) => ev.call fuel id callee (← asWritten id callee args)

def applyInfix (form : List Token) : EvalM (List Token) := do
  match ← EvalM.ofFailure (OperatorTree.parse (← EvalM.scope id).operatorFor form) with
  | some tree => return tree.calls
  | none => return []

/-- Names an atom with any text. -/
def applySym (head : Token) : EvalM (List Token) :=
  if head.isLiteral then return [.done (.atom head.content) head.pos?]
  else EvalM.fail (.blaming head .symWithoutString)

/-- Runs the code of a varying of the host. -/
def applyHost (key : String) (r : Region) : EvalM (List Token) := do
  ((← EvalM.host).varying key r).run ev fuel id

def apply (v : Varying) (r : Region) : EvalM (List Token) :=
  match v with
  | .call => applyCall ev fuel id r.inside
  | .quotedCall => applyQuotedCall ev fuel id r.inside
  | .list => return [.stable (.list r.inside)]
  | .map => do return [.stable (.map (← EvalM.ofExcept (Entry.putAll [] r.inside)))]
  | .set => do return [.stable (.set (← EvalM.ofExcept (Token.addMembers [] r.inside)))]
  | .infixForm => applyInfix id r.inside
  | .sym => applySym r.head
  | .host key => applyHost ev fuel id key r

end Varying

namespace Evaluator

variable (ev : Evaluator) (fuel : Nat) (id : ScopeId)

/-- What a closed region becomes. -/
def close (opening : Token) (inside : List Token) : EvalM (List Token) := do
  let s ← EvalM.scope id
  match (s.varying? opening.mode).or (s.varying? opening.bracket) with
  | some v =>
    EvalM.blaming opening (EvalM.locating (.region v opening inside)
      (v.apply ev fuel id (.bracketed opening inside)))
  | none => return inside

/-- What a quoted text with a mode becomes: without a varying, a plain string. -/
def closeLiteral (t : Token) : EvalM (List Token) := do
  match (← EvalM.scope id).varying? t.mode with
  | some v => v.apply ev fuel id (.single t)
  | none => return [.done (.string t.content) t.pos?]

/-- The binding of a name. An unknown name is null, or a failure in a strict scope. -/
def resolve (t : Token) : EvalM Token := do
  let s ← EvalM.scope id
  match s.get? t.content with
  | some bound => return bound
  | none => if s.strict then EvalM.fail (.blaming t (s.unknown t.content)) else return .null

/-- Lets the pending token or envoy at the front of a buffer act: the tokens that
take its place, and what is left of the buffer after it. -/
def act (t : Token) (after : List Token) : EvalM (List Token × List Token) :=
  match t with
  | .envoy e _ => e.apply ev fuel id after
  | .literal _ _ _ _ => do return (← closeLiteral ev fuel id t, after)
  | _ => do return ([← resolve id t], after)

end Evaluator

end TokenLang
