import TokenLang.Text.CaseMap
import TokenLang.Text.Source

/-!
Texts in small letters, made piece by piece in a buffer. A short text without
replacement characters comes out with each character in lower case. Beyond that the
pieces show: a character that lies across the edge of a piece is taken apart into
replacement characters, a character that the buffer has no room for is left out
before the buffer grows, and a replacement character counts as one byte of its
piece, so that its other bytes are read again.
-/

set_option autoImplicit false
set_option relaxedAutoImplicit false

namespace TokenLang.Text.Fold

/-- How many bytes a piece has, and the buffer at first. -/
def pieceSize : Nat := 128

/-- How many bytes of its piece a character counts for. -/
def consumedBy (c : Char) : Nat := if c = Source.replacement then 1 else c.utf8Size

/-- What became of a piece: the characters written and their bytes, the bytes of the
piece that count as read, and whether the buffer ran full. -/
structure Piece where
  written : List Char
  size : Nat
  consumed : Nat
  full : Bool

/-- Writes characters in lower case while there is room. The character that does not
fit counts as read. -/
def Piece.write (room : Nat) : List Char → Piece
  | [] => ⟨[], 0, 0, false⟩
  | c :: rest =>
    let small := CaseMap.lower c
    if room < small.utf8Size then ⟨[], 0, consumedBy c, true⟩
    else
      let ⟨written, size, consumed, full⟩ := Piece.write (room - small.utf8Size) rest
      ⟨small :: written, small.utf8Size + size, consumedBy c + consumed, full⟩

/-- Writes the next piece of the bytes. -/
def Piece.next (room : Nat) (bytes : List UInt8) : Piece :=
  Piece.write room (Source.decode (bytes.take pieceSize))

/-- Whether a piece is written just as it was read. -/
def Piece.isUnchanged (p : Piece) (bytes : List UInt8) : Bool :=
  !p.full && (String.ofList p.written).toUTF8.toList == bytes.take p.consumed

/-- A text in the making: what is written and its bytes, the bytes that the buffer
holds, and the bytes to come. -/
structure Draft where
  written : List Char
  size : Nat
  capacity : Nat
  rest : List UInt8

/-- A full buffer doubles, a large one grows by half. -/
def grow (capacity : Nat) : Nat :=
  if capacity ≤ 256 then capacity * 2 else capacity + capacity / 2

/-- Writes the bytes to come. The buffer grows only when not one character fits. -/
def Draft.finish : Nat → Draft → List Char
  | 0, d => d.written
  | fuel + 1, d =>
    let p := Piece.next (d.capacity - d.size) d.rest
    let capacity := if p.full && p.written.isEmpty then grow d.capacity else d.capacity
    let rest := d.rest.drop p.consumed
    if rest.isEmpty && !p.full then d.written ++ p.written
    else Draft.finish fuel ⟨d.written ++ p.written, d.size + p.size, capacity, rest⟩

/-- The text of the bytes after a beginning that stays as it is. As long as pieces
stay as they are, the buffer is used afresh for each; then it is made large enough
for what is written and for the bytes to come. -/
def foldFrom (written : List Char) (size : Nat) : Nat → List UInt8 → List Char
  | 0, _ => written
  | fuel + 1, bytes =>
    let p := Piece.next pieceSize bytes
    let rest := bytes.drop p.consumed
    if rest.isEmpty && !p.full then written ++ p.written
    else if p.isUnchanged bytes then
      foldFrom (written ++ p.written) (size + p.size) fuel rest
    else
      let capacity := if size + p.size ≤ pieceSize then pieceSize
        else size + p.size + rest.length
      Draft.finish (rest.length + 1) ⟨written ++ p.written, size + p.size, capacity, rest⟩

/-- A text in small letters. -/
def fold (text : String) : String :=
  let bytes := text.toUTF8.toList
  String.ofList (foldFrom [] 0 (bytes.length + 1) bytes)

end TokenLang.Text.Fold
