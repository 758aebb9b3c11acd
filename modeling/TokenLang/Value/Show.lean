import TokenLang.Decimal.Notation
import TokenLang.Value

/-!
The written form of values and tokens. Data is written as source text that reads
back as the same data; functions and other things that have no source form are
written as a description in braces.
-/

set_option autoImplicit false
set_option relaxedAutoImplicit false

namespace TokenLang

namespace Value

/-- The mark on both sides of a character literal. -/
def charMark : Char := '\x60'

def charBody (c : Char) : String :=
  match c with
  | '\n' => "\\n"
  | '\t' => "\\t"
  | '\r' => "\\r"
  | '\x00' => "\\0"
  | '\\' => "\\\\"
  | _ => if c = charMark then "\\" ++ charMark.toString else c.toString

/-- A character between two backquotes. -/
def charText (c : Char) : String := charMark.toString ++ charBody c ++ charMark.toString

def stringEscape (c : Char) : String :=
  match c with
  | '\n' => "\\n"
  | '\t' => "\\t"
  | '\r' => "\\r"
  | '\x08' => "\\b"
  | '\x0c' => "\\f"
  | '\x00' => "\\0"
  | '\\' => "\\\\"
  | '\x22' => "\\\""
  | _ => c.toString

/-- A text between double quotes, with the escapes that a reader undoes. -/
def stringText (s : String) : String :=
  "\"" ++ String.join (s.toList.map stringEscape) ++ "\""

end Value

/-- Several written forms, a space between each two. -/
def spaced (texts : List String) : String := " ".intercalate texts

/-- The description of something a user defined with parameters. -/
def headline (kind name : String) (params : List String) : String :=
  "\x7b" ++ kind ++ " " ++ (if name = "" then "anonymous" else name) ++
    " [" ++ spaced params ++ "]\x7d"

/-- The description of something of the standard library. -/
def description (kind name : String) : String := "\x7b" ++ kind ++ " " ++ name ++ "\x7d"

def Callable.text : Callable → String
  | .arith op => description "builtin" op.name
  | .compare op => description "builtin" op.name
  | .primitive p => description "builtin" p.name
  | .closure name _ params _ => headline "fn" name params
  | .host (some name) _ => description "builtin" name
  | .host none _ => "<function>"
  | .renamed name _ => description "builtin" name

def Expander.text : Expander → String
  | .special form => description "macro" form.name
  | .template name _ params _ => headline "macro" name params
  | .host _ => "<macro>"

def Varying.text (v : Varying) : String :=
  match v.name? with
  | some name => description "morph" name
  | none => "<morph>"

def Object.text : Object → String
  | .rng => description "object" "rng"
  | .math => description "object" "math"
  | .host _ => "<object>"

mutual

def Value.text : Value → String
  | .null => "null"
  | .bool b => if b then "true" else "false"
  | .int i => toString i.toInt
  | .float x _ => Decimal.plain.write x
  | .char c => Value.charText c
  | .string s => Value.stringText s
  | .atom name => ":" ++ name
  | .list items => "[" ++ spaced (Token.texts items) ++ "]"
  | .quote items => ":(" ++ spaced (Token.texts items) ++ ")"
  | .map entries => "#map[" ++ spaced (Entry.texts entries) ++ "]"
  | .set members => "#set[" ++ spaced (Token.texts members) ++ "]"
  | .function f _ => f.text
  | .expander m _ => m.text
  | .morph m _ => m.text
  | .object o _ => o.text

def Envoy.text : Envoy → String
  | .quote => description "envoy" ":"
  | .unquote => description "envoy" "@"
  | .splice tokens => description "splice" (spaced (Token.texts tokens))
  | .mutant name _ _ => description "mutant" name
  | .host _ _ => "<morph>"

def Morph.text : Morph → String
  | .envoy e => e.text
  | .varying v => v.text

def Token.text : Token → String
  | .symbol name _ => name
  | .opening bracket mode _ =>
    if bracket != "" && mode != "" then "#" ++ mode ++ bracket else bracket
  | .closing bracket _ => bracket
  | .literal delimiter text mode _ => "#" ++ mode ++ delimiter ++ text ++ delimiter
  | .done value _ => value.text
  | .envoy e _ => e.text
  | .varying v _ => v.text

def Token.texts : List Token → List String
  | [] => []
  | t :: ts => t.text :: Token.texts ts

def Entry.texts : List Entry → List String
  | [] => []
  | .mk key value :: entries => (key.text ++ " " ++ value.text) :: Entry.texts entries

end

/-- A buffer written back as source text. -/
def Token.encode (tokens : List Token) : String := spaced (Token.texts tokens)

/-- Values as text that reads back as the same values. -/
def Value.encode (values : List Value) : String := spaced (values.map Value.text)

/-- The text that printing gives: strings and characters stand for themselves. -/
def Value.display : Value → String
  | .string s => s
  | .char c => c.toString
  | v => v.text

end TokenLang
