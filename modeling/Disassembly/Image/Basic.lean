import Disassembly.Text.Hex

/-!
# Program images

A program image is a string of bytes. Addresses in it are words, so an image
must stay within what a word can count, and a read must stay within the image.
-/

namespace Disassembly

abbrev Image := List UInt8

/-- An image of this many bytes, or more, is refused. -/
def Image.sizeLimit : Nat := 65355

/-- The word whose low byte comes first. -/
def wordOfBytes (low high : UInt8) : UInt16 :=
  low.toUInt16 + 256 * high.toUInt16

/-- The two bytes of a word, the low one first. -/
def bytesOfWord (word : UInt16) : List UInt8 :=
  [word.toUInt8, (word / 256).toUInt8]

/-- Why an image, or a part of it, cannot be decoded. -/
inductive DecodeError where
  /-- The image is longer than its addresses can reach. -/
  | oversize (length : Nat)
  /-- A byte was wanted at an offset where the image has none. -/
  | outOfData (offset length : Nat)
deriving DecidableEq, Repr

def DecodeError.message : DecodeError → String
  | oversize length =>
      "ROM size exceeded 16-bit integer limit (got " ++ toString length ++ " bytes)"
  | outOfData offset length =>
      "unexpected end of data at offset " ++ Hex.marked 4 offset ++
        " (image is " ++ toString length ++ " bytes)"

def failure? {α : Type} : Except DecodeError α → Option DecodeError
  | .ok _ => none
  | .error e => some e

end Disassembly
