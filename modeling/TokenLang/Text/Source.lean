/-!
Source text from bytes. Decoding never fails: a byte that does not begin a
well-formed UTF-8 sequence stands for the replacement character on its own, so
every byte string has a text. One byte order mark at the very start is dropped.
-/

set_option autoImplicit false
set_option relaxedAutoImplicit false

namespace TokenLang.Text.Source

/-- What a malformed byte reads as. -/
def replacement : Char := '\ufffd'

/-- The character that marks the byte order of a text and is no part of it. -/
def byteOrderMark : Char := '\ufeff'

def isContinuation (b : UInt8) : Bool := 0x80 ≤ b && b ≤ 0xbf

/-- The low six bits of a continuation byte. -/
def payload (b : UInt8) : Nat := b.toNat % 64

/-- The multi-byte sequence that a lead byte and the bytes after it begin with:
the character and how many of the bytes after the lead belong to it. Overlong
forms, surrogates and values above U+10FFFF are no sequences. -/
def sequence? (lead : UInt8) : List UInt8 → Option (Char × Nat)
  | b :: c :: d :: _ =>
    if let some r := short? lead b then some (r, 1)
    else if let some r := middle? lead b c then some (r, 2)
    else (long? lead b c d).map fun r ↦ (r, 3)
  | [b, c] =>
    if let some r := short? lead b then some (r, 1)
    else (middle? lead b c).map fun r ↦ (r, 2)
  | [b] => (short? lead b).map fun r ↦ (r, 1)
  | [] => none
where
  short? (lead b : UInt8) : Option Char :=
    if 0xc2 ≤ lead && lead ≤ 0xdf && isContinuation b then
      some (Char.ofNat ((lead.toNat % 32) * 64 + payload b))
    else none
  middle? (lead b c : UInt8) : Option Char :=
    if 0xe0 ≤ lead && lead ≤ 0xef && isContinuation b && isContinuation c &&
        !(lead == 0xe0 && b < 0xa0) && !(lead == 0xed && 0x9f < b) then
      some (Char.ofNat ((lead.toNat % 16) * 4096 + payload b * 64 + payload c))
    else none
  long? (lead b c d : UInt8) : Option Char :=
    if 0xf0 ≤ lead && lead ≤ 0xf4 && isContinuation b && isContinuation c &&
        isContinuation d && !(lead == 0xf0 && b < 0x90) && !(lead == 0xf4 && 0x8f < b) then
      some (Char.ofNat
        ((lead.toNat % 8) * 262144 + payload b * 4096 + payload c * 64 + payload d))
    else none

/-- The characters of a byte string, `skip` of whose first bytes belong to a
character already read. -/
def decodeFrom : Nat → List UInt8 → List Char
  | _, [] => []
  | skip + 1, _ :: bytes => decodeFrom skip bytes
  | 0, lead :: bytes =>
    if lead < 0x80 then Char.ofNat lead.toNat :: decodeFrom 0 bytes
    else match sequence? lead bytes with
      | some (c, more) => c :: decodeFrom more bytes
      | none => replacement :: decodeFrom 0 bytes

def decode (bytes : List UInt8) : List Char := decodeFrom 0 bytes

/-- A text without the byte order mark it may begin with. -/
def dropMark : List Char → List Char
  | c :: rest => if c = byteOrderMark then rest else c :: rest
  | [] => []

def ofBytes (bytes : List UInt8) : List Char := dropMark (decode bytes)

def ofString (text : String) : List Char := dropMark text.toList

end TokenLang.Text.Source
