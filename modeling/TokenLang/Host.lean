import TokenLang.Reader
import TokenLang.Scope

/-!
Host code. A host can add functions, expanders, objects, envoys and varyings whose code is not
written in the language. Their tokens carry a key only; the code for each key is a `Host`, which a
world is given from outside.

`Host.Code` is what such code does with the scope it is called in, one constructor for each thing
it may ask for, with what it does next for every answer it may get: it looks at the scope, takes
reference numbers, prints, assigns and defines names, evaluates tokens there or in a scope that it
derives for them, and has a memory, which all code of a host shares. What it does not ask for it
cannot depend on. It does not see the buffer that its call stands in. Shadowing names, reserving
them, defining operators and holding on to scopes are left to the host outside of evaluations.
-/

set_option autoImplicit false
set_option relaxedAutoImplicit false

namespace TokenLang

/-- What host code does in a scope until it comes to an answer or fails. -/
inductive Host.Code (α : Type) where
  | answer (a : α)
  | fail (f : Failure)
  /-- Looks at the scope. -/
  | look (next : Scope → Code α)
  /-- Takes so many reference numbers one after the other, of which it gets the first. -/
  | fresh (count : Nat) (next : Ref → Code α)
  | write (text : String) (next : Code α)
  /-- Asks what the host remembers. -/
  | memory (next : Nat → Code α)
  /-- Replaces what the host remembers. -/
  | setMemory (memory : Nat) (next : Code α)
  /-- Replaces the binding of a name; it gets the failure, if there is one. -/
  | assign (name : String) (t : Token) (next : Option Failure → Code α)
  /-- Assigns a name, or binds it when it has no binding. -/
  | define (name : String) (t : Token) (next : Option Failure → Code α)
  /-- Evaluates tokens in the scope, or apart in one derived from it; it gets the values, and the
  failure that ended it, if there was one. -/
  | evaluate (apart : Bool) (tokens : List Token) (next : List Value → Option Failure → Code α)

/-- The code of a host, by the keys that its tokens carry. -/
structure Host where
  /-- Functions get their arguments evaluated. -/
  function : String → List Token → Host.Code (Option Token)
  /-- Expanders get their arguments as written. -/
  expander : String → List Token → Host.Code (List Token)
  /-- Objects get the name of a method and its arguments. -/
  method : String → String → List Token → Host.Code (Option Token)
  /-- Envoys get the tokens they were made with. -/
  envoy : String → List Token → Host.Code (List Token)
  /-- Varyings get the region they take the place of. -/
  varying : String → Region → Host.Code (List Token)

namespace Host

/-- Reads a text and evaluates it in the scope. -/
def Code.eval {α : Type} (source : List Char) (next : List Value → Option Failure → Code α) :
    Code α :=
  match Lexeme.read source with
  | .ok units =>
    .fresh units.length fun base ↦ .evaluate false (Reader.ofLexemes base units) next
  | .error e => next [] (some (.of (.unreadable e)))

/-! ### The usual host -/

/-- The number of the arguments, and nothing without any. -/
def tally (args : List Token) : Code (Option Token) :=
  .answer (if args.isEmpty then none else some (.stable (.int (Int64.ofNat args.length))))

/-- The list of the name and the arguments of a method, apart from `nil`, which gives nothing, and
`fail`, which fails. -/
def echo (name : String) (args : List Token) : Code (Option Token) :=
  match name with
  | "nil" => .answer none
  | "fail" => .fail (.of (.reported "host failure"))
  | _ => .answer (some (.stable (.list (.stable (.atom name) :: args))))

/-- A host with one function, expander, object and envoy and two varyings. -/
def usual : Host where
  function key args :=
    match key with
    | "tally" => tally args
    | _ => .answer none
  expander key args :=
    match key with
    | "twice" => .answer (args ++ args)
    | _ => .answer []
  method key name args :=
    match key with
    | "echo" => echo name args
    | _ => .answer none
  envoy key held :=
    match key with
    | "stand" => .answer held
    | _ => .answer []
  varying key r :=
    match key with
    | "count" => .answer [.stable (.int (Int64.ofNat r.size))]
    | "reverse" => .answer r.inside.reverse
    | _ => .answer []

instance : Inhabited Host := ⟨usual⟩

end Host

end TokenLang
