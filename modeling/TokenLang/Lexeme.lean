import TokenLang.Position
import TokenLang.Text.Quoted

/-!
Lexical units: brackets, quoted texts, characters, words, the two markers and the
end of the text. A bracket or quoted text may carry a mode, the tag written after
`#` in front of it.
-/

set_option autoImplicit false
set_option relaxedAutoImplicit false

namespace TokenLang

inductive Lexeme.Kind where
  | opening
  | closing
  | string
  | char
  | word
  | quote
  | unquote
  | finish
deriving DecidableEq, Inhabited

structure Lexeme where
  kind : Lexeme.Kind
  /-- The bracket, the word, or the decoded contents of a quoted text. -/
  text : String
  mode : String
  /-- The bracket or quote character that delimits the unit. -/
  delimiter : String
  /-- The place of its first character, the `#` of a mode included. -/
  position : Position
deriving DecidableEq, Inhabited

namespace Lexeme

def Kind.name : Kind → String
  | .opening => "open"
  | .closing => "close"
  | .string => "string"
  | .char => "char"
  | .word => "word"
  | .quote => "quote"
  | .unquote => "unquote"
  | .finish => "EOF"

/-- A one-line description: kind, mode if there is one, quoted text and place. -/
def describe (x : Lexeme) : String :=
  let mode := if x.mode = "" then "" else "#" ++ x.mode ++ " "
  "(:" ++ x.kind.name ++ " " ++ mode ++ Text.Quoted.quote x.text ++
    " [" ++ toString x.position.line ++ " " ++ toString x.position.column ++ "])"

/-- What can be wrong with a text before its structure is looked at. -/
inductive Fault where
  | unterminatedString
  | unterminatedChar
  | unterminatedComment
  | danglingMode
  | unexpectedChar
deriving DecidableEq, Inhabited

def Fault.message : Fault → String
  | .unterminatedString => "unterminated string"
  | .unterminatedChar => "unterminated character literal"
  | .unterminatedComment => "unterminated block comment"
  | .danglingMode => "mode must be followed by a bracket or a string"
  | .unexpectedChar => "unexpected character"

/-- A fault and the place of the first character of the unit that has it. -/
structure Error where
  fault : Fault
  position : Position
deriving DecidableEq, Inhabited

def Error.message (e : Error) : String := e.position.text ++ ": " ++ e.fault.message

end Lexeme

end TokenLang
