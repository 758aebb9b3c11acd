import TokenLang.Value

/-!
Tokens as the scan sees them: what kind a token is of, the parts of a pending one,
and the tests that decide what is done with it. A bracket is a text of any length;
one with no characters delimits nothing and counts as a name.
-/

set_option autoImplicit false
set_option relaxedAutoImplicit false

namespace TokenLang

namespace Token

/-- What the scan does when it meets a token. -/
inductive Kind where
  | pending | resolved | envoy | varying | expander | function
deriving DecidableEq, Inhabited

def Kind.name : Kind → String
  | .pending => "pending"
  | .resolved => "resolved"
  | .envoy => "envoy"
  | .varying => "varying"
  | .expander => "macro"
  | .function => "function"

def kind : Token → Kind
  | .done (.function _ _) _ => .function
  | .done (.expander _ _) _ => .expander
  | .done _ _ => .resolved
  | .envoy _ _ => .envoy
  | .varying _ _ => .varying
  | _ => .pending

/-- The name or text of a pending token. -/
def content : Token → String
  | .symbol name _ => name
  | .literal _ text _ _ => text
  | _ => ""

/-- The bracket of a pending token, or the quote mark of a quoted text. -/
def bracket : Token → String
  | .opening b _ _ => b
  | .closing b _ => b
  | .literal d _ _ _ => d
  | _ => ""

def mode : Token → String
  | .opening _ m _ => m
  | .literal _ _ m _ => m
  | _ => ""

/-- Whether a token was made as a closing bracket. -/
def closes : Token → Bool
  | .closing _ _ => true
  | _ => false

def isLiteral : Token → Bool
  | .literal _ _ _ _ => true
  | _ => false

/-- Whether a token is an opening or closing bracket. -/
def isDelimiter (t : Token) : Bool := t.bracket != "" && !t.isLiteral

def isOpening (t : Token) : Bool := t.isDelimiter && !t.closes

def isClosing (t : Token) : Bool := t.isDelimiter && t.closes

/-- Whether a token is a name that has not been resolved yet. -/
def isSymbol (t : Token) : Bool := t.kind == .pending && t.bracket == ""

/-- Whether the scan can hand a token out as a result. -/
def isComplete : Token → Bool
  | .done _ _ => true
  | .varying _ _ => true
  | _ => false

/-- Whether what stands inside this opening bracket is left as written. -/
def quotes (t : Token) : Bool := t.bracket == "\x7b"

end Token

/-- What a varying is handed: tokens between brackets, or a quoted text with a mode. -/
inductive Region where
  | bracketed (opening : Token) (inside : List Token)
  | single (literal : Token)

namespace Region

/-- What stands between the brackets. A quoted text has nothing inside. -/
def inside : Region → List Token
  | .bracketed _ inside => inside
  | .single _ => []

/-- The first token of a region. -/
def head : Region → Token
  | .bracketed opening _ => opening
  | .single literal => literal

/-- The number of tokens of a region, the brackets included. -/
def size : Region → Nat
  | .bracketed _ inside => inside.length + 2
  | .single _ => 1

end Region

end TokenLang
