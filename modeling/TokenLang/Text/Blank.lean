/-!
White space around a text, as the Unicode property lists it.
-/

set_option autoImplicit false
set_option relaxedAutoImplicit false

namespace TokenLang.Text.Blank

def isBlank (c : Char) : Bool :=
  let n := c.toNat
  (9 ≤ n && n ≤ 13) || n == 0x20 || n == 0x85 || n == 0xa0 || n == 0x1680 ||
    (0x2000 ≤ n && n ≤ 0x200a) || n == 0x2028 || n == 0x2029 || n == 0x202f ||
    n == 0x205f || n == 0x3000

/-- A text of white space only. -/
def isBlankText (s : String) : Bool := s.toList.all isBlank

end TokenLang.Text.Blank
