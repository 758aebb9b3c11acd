import TokenLang.Failure
import TokenLang.StackMap
import TokenLang.Text.Suggestion
import TokenLang.Token

/-!
A scope: the bindings an evaluation sees. Reserved names are never rebound or
shadowed; pushing or popping one is without effect, and assigning one is a failure.
-/

set_option autoImplicit false
set_option relaxedAutoImplicit false

namespace TokenLang

/-- How an operator groups in an infix form. -/
structure Operator where
  precedence : Int
  rightAssociative : Bool
deriving DecidableEq, Inhabited

structure Scope where
  name : String
  store : StackMap Token
  reserved : List String
  operators : List (String × Operator)
  /-- Whether unknown names, calls of what cannot be called and missing arguments
  are failures. -/
  strict : Bool
  /-- How often one place of a buffer may be resolved before the scan gives up. -/
  maxHops : Nat

namespace Scope

def usualHops : Nat := 256

/-- The name that the arguments left over after all parameters are bound to. -/
def leftoverName : String := "..."

def empty (name : String) (strict : Bool) (maxHops : Nat) : Scope where
  name := name
  store := .new 256
  reserved := []
  operators := []
  strict := strict
  maxHops := if maxHops = 0 then usualHops else maxHops

instance : Inhabited Scope := ⟨empty "" false 0⟩

def reserve (s : Scope) (name : String) : Scope := { s with reserved := name :: s.reserved }

def isReserved (s : Scope) (name : String) : Bool := s.reserved.contains name

def get? (s : Scope) (name : String) : Option Token := s.store.get? name

/-- Each bound name once, in the order of first appearance. -/
def names (s : Scope) : List String := s.store.keys

/-- The bound name that is probably meant by an unknown one. The empty name can be bound
and come closest, but it is no suggestion. -/
def suggest (s : Scope) (name : String) : Option String :=
  (Text.Suggestion.suggestion name s.names).filter (· != "")

def unknown (s : Scope) (name : String) : Cause := .unknownBinding name (s.suggest name)

def peek (s : Scope) (name : String) : Except Cause Token :=
  match s.get? name with
  | some t => .ok t
  | none => .error (s.unknown name)

/-- Shadows a name, unless it is reserved. -/
def push (s : Scope) (name : String) (t : Token) : Scope :=
  if s.isReserved name then s
  else
    let ⟨title, store, reserved, operators, strict, maxHops⟩ := s
    ⟨title, store.push name t, reserved, operators, strict, maxHops⟩

/-- Drops the binding of the last push of a name, if there is one and the name is
not reserved. -/
def pop (s : Scope) (name : String) : Scope :=
  if s.isReserved name then s
  else
    let ⟨title, store, reserved, operators, strict, maxHops⟩ := s
    ⟨title, (store.pop name).2, reserved, operators, strict, maxHops⟩

/-- Pops a name that must have a binding, unless it is reserved. -/
def popBound (s : Scope) (name : String) : Except Cause Scope :=
  if s.isReserved name || (s.get? name).isSome then .ok (s.pop name)
  else .error (.unknownBinding name none)

/-- Replaces the binding of an existing name. -/
def assign (s : Scope) (name : String) (t : Token) : Except Cause Scope :=
  if s.isReserved name then .error (.reservedName name)
  else
    let (found, store) := s.store.set name t
    let s := { s with store := store }
    if found then .ok s else .error (s.unknown name)

/-- Assigns a name, or binds it when it has no binding. -/
def define (s : Scope) (name : String) (t : Token) : Except Cause Scope :=
  if s.isReserved name then .error (.reservedName name)
  else
    let (found, store) := s.store.set name t
    .ok { s with store := if found then store else store.push name t }

def operator? (s : Scope) (name : String) : Option Operator := s.operators.lookup name

/-- Binds and reserves a name. -/
def install (s : Scope) (name : String) (t : Token) : Scope :=
  { s with store := s.store.push name t }.reserve name

/-- Installs a function that infix forms can reorder. -/
def installOperator (s : Scope) (name : String) (t : Token) (op : Operator) : Scope :=
  let s := s.install name t
  { s with operators := (name, op) :: s.operators }

/-- The operator that a token stands for in an infix form. -/
def operatorFor (s : Scope) : Token → Option Operator
  | .done (.function f _) _ => f.name?.bind s.operator?
  | _ => none

/-- The marker a token stands for: the quoting or unquoting envoy, itself or by
name. -/
def marker? (s : Scope) (t : Token) : Option Envoy :=
  let meant := if t.isSymbol then s.get? t.content else some t
  match meant with
  | some (.envoy .quote _) => some .quote
  | some (.envoy .unquote _) => some .unquote
  | _ => none

def isMarker (s : Scope) (t : Token) : Bool := (s.marker? t).isSome

/-- The varying bound to a mode or a bracket. -/
def varying? (s : Scope) (name : String) : Option Varying :=
  if name = "" then none
  else match s.get? name with
    | some (.varying v _) => some v
    | _ => none

end Scope

end TokenLang
