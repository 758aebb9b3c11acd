import TokenLang.Token

/-!
Brackets that belong together. An opening and a closing bracket match when one is
the other read backwards with every character turned round, so each has exactly one
partner.
-/

set_option autoImplicit false
set_option relaxedAutoImplicit false

namespace TokenLang.Token

/-- The character that faces the other way. -/
def turn (c : Char) : Char :=
  if c = '(' then ')'
  else if c = ')' then '('
  else if c = '[' then ']'
  else if c = ']' then '['
  else if c = '\x7b' then '\x7d'
  else if c = '\x7d' then '\x7b'
  else c

/-- Whether two texts face each other: each character of the first is turned into its
counterpart in the second read backwards. -/
def faces (a b : String) : Bool := b.toList.reverse == a.toList.map turn

/-- Whether two tokens close each other. -/
def closesWith (t other : Token) : Bool :=
  t.isDelimiter && other.isDelimiter && t.closes != other.closes && faces t.bracket other.bracket

end TokenLang.Token
