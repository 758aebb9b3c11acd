import TokenLang.Text.Source

/-!
The lines of an input. A line ends at a line feed, which a carriage return may come
before, and the last one may have no end. The input is read through a window of
bytes, and what fills the window without a line feed counts as a line of its own,
even if that cuts a character in two. Only a carriage return stays behind for the
next line then, since a line feed may follow it.
-/

set_option autoImplicit false
set_option relaxedAutoImplicit false

namespace TokenLang.Command

namespace Lines

/-- How many bytes a line can have, its end included. -/
def window : Nat := 4096

def lineFeed : UInt8 := 10

def carriageReturn : UInt8 := 13

/-- A line given backwards without the carriage return at its end. -/
def dropReturn : List UInt8 → List UInt8
  | b :: line => if b = carriageReturn then line else b :: line
  | [] => []

/-- The lines of the bytes, after `count` bytes of the first line, which are given
backwards in `line`. -/
def cutFrom (line : List UInt8) (count : Nat) : List UInt8 → List (List UInt8)
  | [] => if line.isEmpty then [] else [line.reverse]
  | b :: bytes =>
    if b = lineFeed then (dropReturn line).reverse :: cutFrom [] 0 bytes
    else if count + 1 < window then cutFrom (b :: line) (count + 1) bytes
    else if b = carriageReturn then line.reverse :: cutFrom [b] 1 bytes
    else (b :: line).reverse :: cutFrom [] 0 bytes

def cut (bytes : List UInt8) : List (List UInt8) := cutFrom [] 0 bytes

end Lines

def lines (text : String) : List String :=
  (Lines.cut text.toUTF8.toList).map fun line ↦ String.ofList (Text.Source.decode line)

end TokenLang.Command
