import TokenLang.Decimal.Nearest

/-!
Number literals. An integer is decimal, or hexadecimal or binary with all of its
sixty-four bits, and may end in `l` or `n`; a decimal integer out of range is read
as a float instead. A float has digits on both sides of its point, may have an
exponent, may end in `f` or `m`, or is one of the names `NaN` and `Infinity`.
-/

set_option autoImplicit false
set_option relaxedAutoImplicit false

namespace TokenLang

inductive Numeral where
  | int (i : Int64)
  | float (x : Float)

namespace Numeral

/-- A text without its last character, if that is one of the suffixes and not the
whole text. -/
def dropSuffix (suffixes text : List Char) : List Char :=
  match text.getLast? with
  | some c => if 1 < text.length ∧ c ∈ suffixes then text.dropLast else text
  | none => text

/-- The sign in front of a text, true for a minus, and what follows it. -/
def splitSign : List Char → Bool × List Char
  | '+' :: rest => (false, rest)
  | '-' :: rest => (true, rest)
  | text => (false, text)

def isDecimal (c : Char) : Bool := '0' ≤ c && c ≤ '9'

def isHex (c : Char) : Bool := isDecimal c || ('a' ≤ c && c ≤ 'f') || ('A' ≤ c && c ≤ 'F')

def isBinary (c : Char) : Bool := c == '0' || c == '1'

/-- At least one character, and all of them digits. -/
def allDigits (isDigit : Char → Bool) (text : List Char) : Bool :=
  !text.isEmpty && text.all isDigit

def digitValue (c : Char) : Nat :=
  if isDecimal c then c.toNat - '0'.toNat
  else if 'a' ≤ c then c.toNat - 'a'.toNat + 10
  else c.toNat - 'A'.toNat + 10

def ofDigits (base : Nat) (digits : List Char) : Nat :=
  digits.foldl (fun n c ↦ n * base + digitValue c) 0

def signed (negative : Bool) (n : Nat) : Int := if negative then -(n : Int) else n

/-- Digits that stand for the bits of an integer: at most `most` of them, and the
sign applies modulo `2 ^ 64`. -/
def bitPattern? (base most : Nat) (isDigit : Char → Bool) (negative : Bool)
    (digits : List Char) : Option Int64 :=
  if digits.length ≤ most && allDigits isDigit digits then
    some (Int64.ofInt (signed negative (ofDigits base digits)))
  else none

def decimal? (negative : Bool) (digits : List Char) : Option Int64 :=
  if allDigits isDecimal digits then
    let i := signed negative (ofDigits 10 digits)
    if Binary64.fitsInt64 i then some (Int64.ofInt i) else none
  else none

def int? (text : List Char) : Option Int64 :=
  let (negative, body) := splitSign (dropSuffix ['l', 'L', 'n', 'N'] text)
  match body with
  | '0' :: 'x' :: c :: rest => bitPattern? 16 16 isHex negative (c :: rest)
  | '0' :: 'X' :: c :: rest => bitPattern? 16 16 isHex negative (c :: rest)
  | '0' :: 'b' :: c :: rest => bitPattern? 2 64 isBinary negative (c :: rest)
  | '0' :: 'B' :: c :: rest => bitPattern? 2 64 isBinary negative (c :: rest)
  | _ => decimal? negative body

/-- A text cut at the first character of a kind: what is before it, and what is
after it if there is one. -/
def cut (at? : Char → Bool) (text : List Char) : List Char × Option (List Char) :=
  match text.dropWhile (fun c ↦ !at? c) with
  | [] => (text, none)
  | _ :: rest => (text.takeWhile (fun c ↦ !at? c), some rest)

/-- An exponent takes in digits only while it is below this. -/
def exponentBound : Nat := 10000

/-- The exponent that digits spell, as far as they are taken in. -/
def exponentOf (digits : List Char) : Nat :=
  digits.foldl (fun e c ↦ if e < exponentBound then e * 10 + digitValue c else e) 0

/-- The exponent after its mark; without a mark it is zero. -/
def exponent? : Option (List Char) → Option Int
  | none => some 0
  | some text =>
    let (negative, digits) := splitSign text
    if allDigits isDecimal digits then some (signed negative (exponentOf digits)) else none

/-- The digits after the point; without a point there are none. -/
def fraction? : Option (List Char) → Option (List Char)
  | none => some []
  | some digits => if allDigits isDecimal digits then some digits else none

def float? (text : List Char) : Option Float :=
  let (negative, body) := splitSign (dropSuffix ['f', 'F', 'm', 'M'] text)
  if body = "NaN".toList then some Binary64.nan
  else if body = "Infinity".toList then some (Binary64.infinity negative)
  else
    let (mantissa, tail) := cut (fun c ↦ c == 'e' || c == 'E') body
    let (whole, dotted) := cut (· == '.') mantissa
    match exponent? tail, fraction? dotted with
    | some exponent, some fraction =>
      if allDigits isDecimal whole then
        let number := Decimal.Nearest.Significant.of (whole.map digitValue)
          (fraction.map digitValue) exponent
        some (Binary64.ofBits negative number.bits)
      else none
    | _, _ => none

def read? (text : String) : Option Numeral :=
  match int? text.toList with
  | some i => some (.int i)
  | none => (float? text.toList).map .float

end Numeral

end TokenLang
