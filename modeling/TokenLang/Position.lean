/-!
Places in a source text. Lines and columns count from one, and a column counts
characters, not bytes.
-/

set_option autoImplicit false
set_option relaxedAutoImplicit false

namespace TokenLang

structure Position where
  line : Nat
  column : Nat
deriving DecidableEq, Inhabited

namespace Position

/-- The place of the first character of a text. -/
def start : Position := ⟨1, 1⟩

/-- The place after a character: a line break opens the next line. -/
def advance (p : Position) (c : Char) : Position :=
  if c = '\n' then ⟨p.line + 1, 1⟩ else ⟨p.line, p.column + 1⟩

/-- The written form `line:column` that error texts begin with. -/
def text (p : Position) : String := s!"{p.line}:{p.column}"

end Position

end TokenLang
