import TokenLang.Position

/-!
Values and the tokens that carry them. A program is a buffer of tokens; a token is
still pending (a name, a bracket, a quoted text with a mode), or it is an envoy or
a varying, which act on the buffer around them, or it is done and holds a value.
Lists, quotes, maps, sets and bodies hold tokens again, so the types are defined
together.

Functions, expanders, morphs, objects and floats carry the reference number they
were made with. Two of them made apart are told apart by it, even when nothing
else differs.
-/

set_option autoImplicit false
set_option relaxedAutoImplicit false

namespace TokenLang

/-- The number a value was made with. -/
abbrev Ref := Nat

/-- The place of a scope among all scopes of a world. -/
abbrev ScopeId := Nat

/-- Operators that fold their operands from left to right. -/
inductive ArithOp where
  | mul | div | rem | add | sub | shiftLeft | shiftRight | shiftRightZero | and | xor | or
deriving DecidableEq, Inhabited

/-- Operators that compare neighbouring arguments. -/
inductive Comparison where
  | less | lessEqual | greater | greaterEqual | equal | different
deriving DecidableEq, Inhabited

/-- Functions of the standard library that are no operators. -/
inductive Primitive where
  | not | str | print | println | type
deriving DecidableEq, Inhabited

/-- Forms of the standard library that get their arguments as written. -/
inductive SpecialForm where
  | define | assign | increment | decrement | choose | and | or | loop | times
  | lambda | defineFunction | defineExpander | defineMutant
deriving DecidableEq, Inhabited

/-- What a bracket, or a quoted text with a mode, becomes. -/
inductive Varying where
  | call | quotedCall | list | map | set | infixForm | sym
  /-- A varying of the host, by the key of its code. -/
  | host (key : String)
deriving DecidableEq, Inhabited

/-- Values that answer calls by method name. -/
inductive Object where
  | rng
  | math
  /-- An object of the host, by the key of its code. -/
  | host (key : String)
deriving DecidableEq, Inhabited

mutual

inductive Value where
  | null
  | bool (b : Bool)
  | int (i : Int64)
  | float (x : Float) (ref : Ref)
  | char (c : Char)
  | string (s : String)
  /-- A literal name. -/
  | atom (name : String)
  | list (items : List Token)
  /-- Tokens kept as written, to be put back and evaluated by unquoting. -/
  | quote (items : List Token)
  | map (entries : List Entry)
  | set (members : List Token)
  | function (f : Callable) (ref : Ref)
  | expander (m : Expander) (ref : Ref)
  | morph (m : Morph) (ref : Ref)
  | object (o : Object) (ref : Ref)

/-- An entry of a map; the key is kept as the token that was written. -/
inductive Entry where
  | mk (key value : Token)

/-- Something that takes evaluated arguments. -/
inductive Callable where
  | arith (op : ArithOp)
  | compare (op : Comparison)
  | primitive (p : Primitive)
  /-- A user function with the scope it captured. -/
  | closure (name : String) (scope : ScopeId) (params : List String) (body : List Token)
  /-- A function of the host, by the key of its code. -/
  | host (name : Option String) (key : String)
  /-- Another function under a name of its own. -/
  | renamed (name : String) (inner : Callable)

/-- Something that takes its arguments as written and gives the tokens that stand
in place of the call. -/
inductive Expander where
  | special (form : SpecialForm)
  /-- A user expander with the scope it captured. -/
  | template (name : String) (scope : ScopeId) (params : List String) (body : List Token)
  /-- An expander of the host, by the key of its code. -/
  | host (key : String)

/-- Something that acts on the buffer as soon as the scan reaches it. -/
inductive Envoy where
  | quote
  | unquote
  /-- Puts back the several tokens of an argument. -/
  | splice (tokens : List Token)
  /-- Is replaced by what its body comes to in the scope it captured. -/
  | mutant (name : String) (scope : ScopeId) (body : List Token)
  /-- An envoy of the host, by the key of its code and the tokens it was made with. -/
  | host (key : String) (held : List Token)

inductive Morph where
  | envoy (e : Envoy)
  | varying (v : Varying)

/-- The unit of a buffer. Tokens read from a text keep their place in it. -/
inductive Token where
  | symbol (name : String) (pos : Option Position)
  | opening (bracket mode : String) (pos : Option Position)
  | closing (bracket : String) (pos : Option Position)
  /-- A quoted text with a mode. -/
  | literal (delimiter text mode : String) (pos : Option Position)
  | done (value : Value) (pos : Option Position)
  | envoy (e : Envoy) (ref : Ref)
  | varying (v : Varying) (ref : Ref)

end

instance : Inhabited Value := ⟨.null⟩

instance : Inhabited Token := ⟨.done .null none⟩

namespace Entry

def key : Entry → Token
  | .mk k _ => k

def value : Entry → Token
  | .mk _ v => v

end Entry

namespace Value

/-- The name of the type of a value. -/
def typeName : Value → String
  | .null => "nil"
  | .bool _ => "bool"
  | .int _ => "int"
  | .float _ _ => "float"
  | .char _ => "char"
  | .string _ => "string"
  | .atom _ => "atom"
  | .list _ => "list"
  | .quote _ => "quote"
  | .map _ => "map"
  | .set _ => "set"
  | .function _ _ => "function"
  | .expander _ _ => "macro"
  | .morph _ _ => "morph"
  | .object _ _ => "object"

/-- Everything but null and false counts as true. -/
def truthy : Value → Bool
  | .null => false
  | .bool b => b
  | _ => true

end Value

namespace Token

/-- A token that holds a value and came from no text. -/
def stable (v : Value) : Token := .done v none

def null : Token := stable .null

/-- The value of a token that is no longer pending. -/
def value? : Token → Option Value
  | .done v _ => some v
  | .envoy e r => some (.morph (.envoy e) r)
  | .varying v r => some (.morph (.varying v) r)
  | _ => none

def pos? : Token → Option Position
  | .symbol _ p => p
  | .opening _ _ p => p
  | .closing _ p => p
  | .literal _ _ _ p => p
  | .done _ p => p
  | _ => none

end Token

namespace ArithOp

def name : ArithOp → String
  | .mul => "*"
  | .div => "/"
  | .rem => "%"
  | .add => "+"
  | .sub => "-"
  | .shiftLeft => "<<"
  | .shiftRight => ">>"
  | .shiftRightZero => ">>>"
  | .and => "&"
  | .xor => "^"
  | .or => "|"

end ArithOp

namespace Comparison

def name : Comparison → String
  | .less => "<"
  | .lessEqual => "<="
  | .greater => ">"
  | .greaterEqual => ">="
  | .equal => "=="
  | .different => "!="

end Comparison

namespace Primitive

def name : Primitive → String
  | .not => "not"
  | .str => "str"
  | .print => "print"
  | .println => "println"
  | .type => "type"

end Primitive

namespace SpecialForm

def name : SpecialForm → String
  | .define => "def"
  | .assign => "="
  | .increment => "++"
  | .decrement => "--"
  | .choose => "if"
  | .and => "and"
  | .or => "or"
  | .loop => "while"
  | .times => "repeat"
  | .lambda => "fn"
  | .defineFunction => "defn"
  | .defineExpander => "defmacro"
  | .defineMutant => "mutant"

end SpecialForm

namespace Varying

/-- The bracket or mode that a varying of the standard library is bound to. -/
def name? : Varying → Option String
  | .call => some "("
  | .quotedCall => some "\x7b"
  | .list => some "["
  | .map => some "map"
  | .set => some "set"
  | .infixForm => some "infix"
  | .sym => some "sym"
  | .host _ => none

end Varying

namespace Callable

/-- The name under which a function is looked up among the operators. -/
def name? : Callable → Option String
  | .arith op => some op.name
  | .compare op => some op.name
  | .primitive p => some p.name
  | .closure name _ _ _ => some name
  | .host name _ => name
  | .renamed name _ => some name

/-- The function under all of its names. -/
def core : Callable → Callable
  | .renamed _ inner => inner.core
  | f => f

end Callable

end TokenLang
