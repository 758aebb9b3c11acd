import TokenLang.World

/-!
The standard library: what a new scope binds, in this order, and reserves.
-/

set_option autoImplicit false
set_option relaxedAutoImplicit false

namespace TokenLang

namespace Prelude

/-- A name of the standard library, the token it is bound to, given a reference
number, and its entry among the operators. -/
structure Binding where
  name : String
  token : Ref → Token
  operator : Option Operator

def constant (name : String) (v : Value) : Binding := ⟨name, fun _ ↦ .stable v, none⟩

def envoy (name : String) (e : Envoy) : Binding := ⟨name, .envoy e, none⟩

def varying (v : Varying) : Binding := ⟨v.name?.getD "", .varying v, none⟩

def function (f : Callable) (operator : Option Operator) : Binding :=
  ⟨f.name?.getD "", fun ref ↦ .stable (.function f ref), operator⟩

def arith (op : ArithOp) (precedence : Int) : Binding :=
  function (.arith op) (some ⟨precedence, false⟩)

/-- Comparisons bind tighter than bitwise operators and looser than all others. -/
def comparison (op : Comparison) : Binding := function (.compare op) (some ⟨4, false⟩)

def primitive (p : Primitive) : Binding := function (.primitive p) none

def special (form : SpecialForm) : Binding :=
  ⟨form.name, fun ref ↦ .stable (.expander (.special form) ref), none⟩

def object (name : String) (o : Object) : Binding :=
  ⟨name, fun ref ↦ .stable (.object o ref), none⟩

def bindings : List Binding :=
  [constant "null" .null, constant "true" (.bool true), constant "false" (.bool false),
    envoy ":" .quote, envoy "@" .unquote] ++
  [Varying.call, .quotedCall, .list, .map, .set, .infixForm, .sym].map varying ++
  [arith .mul 7, arith .div 7, arith .rem 7, arith .add 6, arith .sub 6,
    arith .shiftLeft 5, arith .shiftRight 5, arith .shiftRightZero 5,
    arith .and 3, arith .xor 2, arith .or 1] ++
  [Comparison.less, .lessEqual, .greater, .greaterEqual, .equal, .different].map comparison ++
  [Primitive.not, .str, .print, .println, .type].map primitive ++
  [SpecialForm.define, .assign, .increment, .decrement, .choose, .and, .or, .loop, .times,
    .lambda, .defineFunction, .defineExpander, .defineMutant].map special ++
  [object "rng" .rng, object "math" .math]

/-- Binds one name of the standard library with a reference number of its own. -/
def installOne (state : Scope × Ref) (b : Binding) : Scope × Ref :=
  let (s, ref) := state
  match b.operator with
  | some op => (s.installOperator b.name (b.token ref) op, ref + 1)
  | none => (s.install b.name (b.token ref), ref + 1)

def install (s : Scope) (ref : Ref) : Scope × Ref := bindings.foldl installOne (s, ref)

end Prelude

/-- How a world is set up. -/
structure Settings where
  name : String
  strict : Bool
  /-- Zero stands for the usual bound. -/
  maxHops : Nat
  seed : Int64

namespace World

/-- The first scope of a world. -/
def root : ScopeId := 0

/-- A world with one scope that holds the standard library. -/
def new (s : Settings) (host : Host := .usual) : World :=
  let (scope, ref) := Prelude.install (.empty s.name s.strict s.maxHops) 0
  ⟨#[scope], "", .ofSeed s.seed, ref, host, 0⟩

end World

end TokenLang
