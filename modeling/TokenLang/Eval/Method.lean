import TokenLang.Eval.HostCode
import TokenLang.Order
import TokenLang.Value.Collection

/-!
Methods, called by name on lists, quotes, maps, sets, texts and objects. Containers
are never changed; a method that adds to one gives a new one.
-/

set_option autoImplicit false
set_option relaxedAutoImplicit false

namespace TokenLang.Method

/-- The value of an argument, null when it is missing. -/
def arg (args : List Token) (i : Nat) : Value := ((args[i]?).bind Token.value?).getD .null

def argInt (args : List Token) (i : Nat) (otherwise : Int64) : Int64 :=
  match (arg args i).number? with
  | some n => n.toInt
  | none => otherwise

def argFloat (args : List Token) (i : Nat) : Float := ((arg args i).number?.getD .zero).toFloat

/-- A method that gives a value. -/
def answer (v : Value) : Except Stop (Option Token) := .ok (some (.stable v))

/-- A method that gives a token as it stands. -/
def hand (t : Token) : Except Stop (Option Token) := .ok (some t)

def unknown (name : String) (receiver : String) : Stop := .of (.unknownMethod name receiver)

def sizeOf (n : Nat) : Except Stop (Option Token) := answer (.int (Int64.ofNat n))

/-- The index an argument gives, if it is one of `size` places. -/
def index? (args : List Token) (size : Nat) : Option Nat :=
  let i := (argInt args 0 (-1)).toInt
  if 0 ≤ i ∧ i < size then some i.toNat else none

/-- Methods of lists and quotes; `wrap` makes a value of the kind of the receiver. -/
def ofItems (wrap : List Token → Value) (items : List Token) (name : String)
    (args : List Token) : Except Stop (Option Token) :=
  match name with
  | "size" => sizeOf items.length
  | "get" => hand (((index? args items.length).bind fun i ↦ items[i]?).getD .null)
  | "first" => hand (items.head?.getD .null)
  | "last" => hand (items.getLast?.getD .null)
  | "rest" => answer (wrap items.tail)
  | "has" =>
    match args with
    | [] => answer (.bool false)
    | wanted :: _ => answer (.bool (items.any fun t ↦ t.agrees wanted))
  | "add" => answer (wrap (items ++ args))
  | _ => .error (unknown name (wrap items).text)

def ofEntries (entries : List Entry) (name : String) (args : List Token) :
    Except Stop (Option Token) :=
  match name with
  | "size" => sizeOf entries.length
  | "get" => hand (((Entry.find? entries (.stable (arg args 0))).map Entry.value).getD .null)
  | "has" => answer (.bool (Entry.find? entries (.stable (arg args 0))).isSome)
  | "put" => do answer (.map (← Entry.putAll entries args))
  | "keys" => answer (.list (entries.map Entry.key))
  | "values" => answer (.list (entries.map Entry.value))
  | _ => .error (unknown name (Value.map entries).text)

def ofMembers (members : List Token) (name : String) (args : List Token) :
    Except Stop (Option Token) :=
  match name with
  | "size" => sizeOf members.length
  | "has" => answer (.bool (Token.hasKey members (.stable (arg args 0))))
  | "add" => do answer (.set (← Token.addMembers members args))
  | "values" => answer (.list members)
  | _ => .error (unknown name (Value.set members).text)

/-- Whether one text occurs in another. -/
def occursIn (part : List Char) : List Char → Bool
  | [] => part.isEmpty
  | c :: rest => part.isPrefixOf (c :: rest) || occursIn part rest

def ofText (s : String) (name : String) (args : List Token) : Except Stop (Option Token) :=
  match name with
  | "size" => sizeOf s.toList.length
  | "get" =>
    match (index? args s.toList.length).bind fun i ↦ s.toList[i]? with
    | some c => answer (.char c)
    | none => answer .null
  | "has" => answer (.bool (occursIn (arg args 0).display.toList s.toList))
  | "upper" => answer (.string (Text.CaseMap.upperCase s))
  | "lower" => answer (.string (Text.CaseMap.lowerCase s))
  | _ => .error (unknown name (Value.string s).text)

/-- A draw that changes the generator. -/
def draw {α : Type} (f : Generator → α × Generator) : EvalM α :=
  modifyGet fun w ↦
    let (a, g) := f w.generator
    (a, { w with generator := g })

def drawn (i : Int64) : EvalM (Option Token) := return some (.stable (.int i))

/-- A float with a reference number of its own. -/
def float (x : Float) : EvalM (Option Token) := return some (← EvalM.numberToken (.float x))

def ofRng (fuel : Nat) (name : String) (args : List Token) : EvalM (Option Token) := do
  match name with
  | "between" =>
    let lo := argInt args 0 0
    let hi := argInt args 1 0
    if hi ≤ lo then drawn lo
    else match (← get).generator.between fuel lo hi with
      | some (i, g) =>
        modify fun w ↦ { w with generator := g }
        drawn i
      | none => throw .exhausted
  | "nextInt" =>
    let bound := argInt args 0 0
    if 0 < bound then drawn (← draw (·.below bound))
    else drawn (← draw Generator.next).toInt64.toInt32.toInt64
  | "nextLong" =>
    let bound := argInt args 0 0
    if 0 < bound then drawn (← draw (·.below bound))
    else drawn (← draw Generator.next).toInt64
  | "nextDouble" => float (← draw Generator.unit)
  | "nextBool" => return some (.stable (.bool (← draw Generator.bool)))
  | "seed" =>
    modify fun w ↦ { w with generator := .ofSeed (argInt args 0 0) }
    return none
  | _ => throw (unknown name Object.rng.text)

/-- Functions of one float. -/
def unary? : String → Option (Float → Float)
  | "sqrt" => some Float.sqrt
  | "sin" => some Float.sin
  | "cos" => some Float.cos
  | "tan" => some Float.tan
  | "log" => some Float.log
  | "exp" => some Float.exp
  | _ => none

/-- Functions that leave integers as they are, apart from the sign of `abs`. -/
def rounding? : String → Option ((Int64 → Int64) × (Float → Float))
  | "abs" => some (fun i ↦ if i < 0 then -i else i, Float.abs)
  | "floor" => some (id, Float.floor)
  | "ceil" => some (id, Float.ceil)
  | "round" => some (id, Float.round)
  | _ => none

/-- The comparison by which an argument beats the best one so far. -/
def extremum? : String → Option Comparison
  | "min" => some .less
  | "max" => some .greater
  | _ => none

def pi : Float := Float.ofBits 0x400921fb54442d18

def e : Float := Float.ofBits 0x4005bf0a8b145769

def ofMath (name : String) (args : List Token) : EvalM (Option Token) := do
  if let some f := unary? name then return ← float (f (argFloat args 0))
  if let some (onInt, onFloat) := rounding? name then
    match (arg args 0).number? with
    | none => return some .null
    | some (.int i) => return ← drawn (onInt i)
    | some (.float x) => return ← float (onFloat x)
  if let some op := extremum? name then
    match args with
    | [] => return some .null
    | first :: rest => return some (← EvalM.ofExcept (op.best first rest))
  match name with
  | "pi" => float pi
  | "e" => float e
  | "pow" => float (Float.pow (argFloat args 0) (argFloat args 1))
  | _ => throw (unknown name Object.math.text)

/-- Methods of an object of the host. -/
def ofHost (ev : Evaluator) (fuel : Nat) (id : ScopeId) (key name : String) (args : List Token) :
    EvalM (Option Token) := do
  ((← EvalM.host).method key name args).run ev fuel id

/-- Whether a value answers to methods. -/
def answers : Value → Bool
  | .list _ | .quote _ | .map _ | .set _ | .string _ | .object _ _ => true
  | _ => false

def call (ev : Evaluator) (fuel : Nat) (id : ScopeId) (receiver : Value) (name : String)
    (args : List Token) : EvalM (Option Token) :=
  match receiver with
  | .list items => EvalM.ofExcept (ofItems .list items name args)
  | .quote items => EvalM.ofExcept (ofItems .quote items name args)
  | .map entries => EvalM.ofExcept (ofEntries entries name args)
  | .set members => EvalM.ofExcept (ofMembers members name args)
  | .string s => EvalM.ofExcept (ofText s name args)
  | .object .rng _ => ofRng fuel name args
  | .object .math _ => ofMath name args
  | .object (.host key) _ => ofHost ev fuel id key name args
  | _ => return none

/-- The method that an argument names. -/
def name? (t : Token) : Option String :=
  match t.value? with
  | some (.atom name) => some name
  | some (.string text) => some text
  | _ => none

end TokenLang.Method
