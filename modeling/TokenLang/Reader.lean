import TokenLang.Lexeme.Scan
import TokenLang.Numeral
import TokenLang.Value

/-!
From text to a buffer. Numbers, plain quoted texts and characters come out with
their values; everything else is pending.
-/

set_option autoImplicit false
set_option relaxedAutoImplicit false

namespace TokenLang.Reader

/-- The token of a word: a number, or else a name. -/
def ofWord (ref : Ref) (text : String) (pos : Position) : Token :=
  match Numeral.read? text with
  | some (.int i) => .done (.int i) (some pos)
  | some (.float x) => .done (.float x ref) (some pos)
  | none => .symbol text (some pos)

/-- The token of a lexical unit; the end of the text has none. A float gets the
reference number given for it. -/
def ofLexeme (ref : Ref) (x : Lexeme) : Option Token :=
  match x.kind with
  | .opening => some (.opening x.delimiter x.mode (some x.position))
  | .closing => some (.closing x.delimiter (some x.position))
  | .string =>
    if x.mode = "" then some (.done (.string x.text) (some x.position))
    else some (.literal x.delimiter x.text x.mode (some x.position))
  | .char => some (.done (.char (x.text.toList.headD default)) (some x.position))
  | .quote => some (.symbol ":" (some x.position))
  | .unquote => some (.symbol "@" (some x.position))
  | .word => some (ofWord ref x.text x.position)
  | .finish => none

/-- The tokens of lexical units, with reference numbers from `base` on. -/
def ofLexemes (base : Ref) (units : List Lexeme) : List Token :=
  (units.zipIdx base).filterMap fun (x, ref) ↦ ofLexeme ref x

def read (base : Ref) (source : List Char) : Except Lexeme.Error (List Token) :=
  (Lexeme.read source).map (ofLexemes base)

/-- Whether a text can be evaluated as it stands: no quoted text, block comment or
bracket in it waits for more. -/
def isComplete (source : List Char) : Bool :=
  match Lexeme.read source with
  | .error e => e.fault != .unterminatedString && e.fault != .unterminatedComment
  | .ok units =>
    units.countP (·.kind == .opening) ≤ units.countP (·.kind == .closing)

end TokenLang.Reader
