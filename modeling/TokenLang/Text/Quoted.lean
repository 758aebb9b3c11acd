import TokenLang.Text.Printable

/-!
Text between double quotes, with every character that has no visible form
written as an escape. The quoted form holds no line break, so it fits in a key
or in an error text.
-/

set_option autoImplicit false
set_option relaxedAutoImplicit false

namespace TokenLang.Text.Quoted

/-- A number in hexadecimal, with zeros in front up to the width. -/
def hex (width n : Nat) : String :=
  let digits := Nat.toDigits 16 n
  String.ofList (List.replicate (width - digits.length) '0' ++ digits)

def escaped (c : Char) : String :=
  match c with
  | '\x22' => "\\\""
  | '\\' => "\\\\"
  | '\n' => "\\n"
  | '\r' => "\\r"
  | '\t' => "\\t"
  | '\x07' => "\\a"
  | '\x08' => "\\b"
  | '\x0b' => "\\v"
  | '\x0c' => "\\f"
  | _ =>
    if Printable.isPrintable c then c.toString
    else if c.toNat < 128 then "\\x" ++ hex 2 c.toNat
    else if c.toNat < 0x10000 then "\\u" ++ hex 4 c.toNat
    else "\\U" ++ hex 8 c.toNat

def quote (s : String) : String :=
  "\"" ++ String.join (s.toList.map escaped) ++ "\""

end TokenLang.Text.Quoted
