import TokenLang.Arith
import TokenLang.Eval.Envoy

/-!
The special forms of the standard library. Each gets its arguments as written and
gives the tokens that take the place of the call.
-/

set_option autoImplicit false
set_option relaxedAutoImplicit false

namespace TokenLang.SpecialForm

variable (ev : Evaluator) (fuel : Nat) (id : ScopeId)

/-- The envoy that has to act before a name can be read. -/
def pendingEnvoy? (s : Scope) : Token → Option Envoy
  | .envoy e _ => some e
  | t => s.marker? t

/-- The name that a token spells. -/
def nameOf (t : Token) : EvalM String :=
  if t.isSymbol || t.isLiteral then return t.content
  else match t.value? with
    | some (.atom name) => return name
    | some (.string text) => return text
    | _ => EvalM.fail (.blaming t (.nameExpected t.text))

/-- The name at the front of the arguments and the arguments after it. Markers and
envoys act first, at most so many times, so that names can be computed. -/
def nameFrom : Nat → List Token → EvalM (String × List Token)
  | 0, _ => EvalM.failWith (.tooManyHops "name")
  | _ + 1, [] => EvalM.failWith .nameMissing
  | hops + 1, t :: rest => do
    match pendingEnvoy? (← EvalM.scope id) t with
    | some e =>
      let (placed, after) ← e.apply ev fuel id rest
      nameFrom hops (placed ++ after)
    | none => return (← nameOf t, rest)

def takeName (args : List Token) : EvalM (String × List Token) := do
  nameFrom ev fuel id ((← EvalM.scope id).maxHops + 1) args

/-- A name and the value of the form after it, null without one. -/
def takeBinding (args : List Token) : EvalM (String × Token) := do
  let (name, rest) ← takeName ev fuel id args
  let (v, _) ← ev.next id rest
  return (name, v.getD .null)

def bind (name : String) (t : Token) : EvalM Unit :=
  EvalM.updateScope id fun s ↦ s.define name t

def rebind (name : String) (t : Token) : EvalM Unit :=
  EvalM.updateScope id fun s ↦ s.assign name t

/-- Adds an amount to a number bound to a name, or subtracts it. -/
def adjust (op : ArithOp) (args : List Token) : EvalM (List Token) := do
  let (name, rest) ← takeName ev fuel id args
  let current ← match (← EvalM.scope id).peek name with
    | .ok t => pure t
    | .error cause => EvalM.failWith cause
  let (amount, _) ← ev.next id rest
  let amount := amount.getD (.stable (.int 1))
  let n ← EvalM.locating (.counter current)
    (EvalM.ofExcept (op.fold (← EvalM.scope id).strict [current, amount]))
  let t ← EvalM.numberToken n
  rebind id name t
  return [t]

/-- Evaluates the condition and then only the branch it takes. -/
def branch (args : List Token) : EvalM (List Token) := do
  match ← ev.next id args with
  | (none, _) => return [.null]
  | (some condition, rest) =>
    let holds := (← EvalM.ofExcept condition.payload).truthy
    let rest ← if holds || rest.isEmpty then pure rest else Prod.snd <$> Evaluator.cut id rest
    let (v, _) ← ev.next id rest
    return [v.getD .null]

/-- Evaluates forms until one is as truthy as `stop` says. -/
def untilTruth (stop : Bool) : Nat → Token → List Token → EvalM (List Token)
  | 0, last, _ => return [last]
  | forms + 1, last, args => do
    match ← ev.next id args with
    | (none, _) => return [last]
    | (some t, rest) =>
      if (← EvalM.ofExcept t.payload).truthy == stop then return [t]
      else untilTruth stop forms t rest

/-- Evaluates the body as long as the condition holds; `done` holds the tokens of
the rounds before, last first. -/
def whileLoop (condition body : List Token) : Nat → List Token → EvalM (List Token)
  | 0, _ => throw .exhausted
  | rounds + 1, done => do
    match ← ev.next id condition with
    | (none, _) => return done.reverse
    | (some t, _) =>
      if (← EvalM.ofExcept t.payload).truthy then
        whileLoop condition body rounds ((← ev.reduce fuel id body).reverse ++ done)
      else return done.reverse

/-- Evaluates the body so many times. -/
def repeatLoop (body : List Token) : Nat → List Token → EvalM (List Token)
  | 0, done => return done.reverse
  | rounds + 1, done => do
    repeatLoop body rounds ((← ev.reduce fuel id body).reverse ++ done)

/-- The names of a parameter list. -/
def paramNames : List Token → EvalM (List String)
  | [] => return []
  | t :: rest => do
    if t.isSymbol then return t.content :: (← paramNames rest)
    else EvalM.fail (.blaming t (.badParameter t.text))

/-- The parameters in the brackets at the front of the arguments, and the body
after them. -/
def takeParams (args : List Token) : EvalM (List String × List Token) := do
  match args with
  | [] => EvalM.failWith .parametersExpected
  | t :: _ =>
    if t.isOpening then
      let (form, body) ← Evaluator.cut id args
      return (← paramNames (Form.strip form), body)
    else EvalM.failWith .parametersExpected

def makeLambda (args : List Token) : EvalM (List Token) := do
  let (params, body) ← takeParams id args
  let scope ← EvalM.derive id
  return [.stable (.function (.closure "" scope params body) (← EvalM.freshRef))]

/-- A token made for a captured scope, in which a name is bound to the token itself. -/
def captured (name : String) (make : ScopeId → Ref → Token) : EvalM Token := do
  let scope ← EvalM.derive id
  let t := make scope (← EvalM.freshRef)
  EvalM.modifyScope scope fun s ↦ s.push name t
  return t

/-- Binds a name to something that captures a scope in which it is bound to itself. -/
def bindRecursive (make : String → ScopeId → List String → List Token → Ref → Value)
    (args : List Token) : EvalM (List Token) := do
  let (name, rest) ← takeName ev fuel id args
  let (params, body) ← takeParams id rest
  let t ← captured id name fun scope ref ↦ .stable (make name scope params body ref)
  bind id name t
  return []

def makeMutant (args : List Token) : EvalM (List Token) := do
  let (name, body) ← takeName ev fuel id args
  let scope ← EvalM.derive id
  bind id name (.envoy (.mutant name scope body) (← EvalM.freshRef))
  return []

def expand (form : SpecialForm) (args : List Token) : EvalM (List Token) :=
  match form with
  | .define => do
    let (name, t) ← takeBinding ev fuel id args
    bind id name t
    return []
  | .assign => do
    let (name, t) ← takeBinding ev fuel id args
    rebind id name t
    return [t]
  | .increment => adjust ev fuel id .add args
  | .decrement => adjust ev fuel id .sub args
  | .choose => branch ev id args
  | .and => untilTruth ev id false (args.length + 1) (.stable (.bool true)) args
  | .or => untilTruth ev id true (args.length + 1) (.stable (.bool false)) args
  | .loop => do
    if args.isEmpty then EvalM.failWith .loopWithoutCondition
    else
      let (condition, body) ← Evaluator.cut id args
      whileLoop ev fuel id condition body fuel []
  | .times => do
    match ← ev.next id args with
    | (none, _) => EvalM.failWith .repeatWithoutCount
    | (some t, body) =>
      let n := ((← EvalM.ofExcept t.payload).number?).getD .zero
      repeatLoop ev fuel id body n.toInt.toNatClampNeg []
  | .lambda => makeLambda id args
  | .defineFunction =>
    bindRecursive ev fuel id
      (fun name scope params body ref ↦ .function (.closure name scope params body) ref) args
  | .defineExpander =>
    bindRecursive ev fuel id
      (fun name scope params body ref ↦ .expander (.template name scope params body) ref) args
  | .defineMutant => makeMutant ev fuel id args

end TokenLang.SpecialForm
