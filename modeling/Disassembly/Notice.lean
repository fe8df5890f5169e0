import Disassembly.Format
import Disassembly.Text.Hex

/-!
# Notices

What the disassembler reports on the side while it works: each instruction it
decoded, each value it could not name, and the fate of the whole image.
-/

namespace Disassembly

/-- A report about one event of a run. -/
inductive Notice where
  /-- The operands of a known instruction have all been read. -/
  | decoded (address opcode : UInt16) (mnemonic : String)
  /-- The opcode word at this address has no form. -/
  | unknownOpcode (address opcode : UInt16)
  /-- The byte at this position names no data type. -/
  | unknownType (byte : UInt8) (position : Nat)
  /-- One side of an offset expression has a tag without a meaning. -/
  | unknownTag (tag : UInt8)
  /-- The image is too long to be disassembled. -/
  | refused (length : Nat)
  /-- The whole image has been disassembled. -/
  | listed (count length : Nat)
  /-- The image is about to be written in this format. -/
  | rendering (length : Nat) (format : Format)
deriving DecidableEq, Repr

inductive Severity where
  | error
  | warning
  | debug
deriving DecidableEq, Repr

namespace Notice

/-- What cannot be named is a warning and what cannot be listed is an error. -/
def severity : Notice → Severity
  | unknownOpcode .. | unknownType .. | unknownTag .. => .warning
  | refused .. => .error
  | decoded .. | listed .. | rendering .. => .debug

def message : Notice → String
  | decoded address opcode mnemonic =>
      Hex.numeral 4 address.toNat ++ ": " ++ Hex.numeral 4 opcode.toNat ++ " " ++ mnemonic
  | unknownOpcode address opcode =>
      "unknown opcode " ++ Hex.numeral 4 opcode.toNat ++ " at " ++ Hex.numeral 4 address.toNat
  | unknownType byte position =>
      "unknown type id " ++ Hex.marked 2 byte.toNat ++ " at " ++ Hex.marked 4 position
  | unknownTag tag => "unknown offset operand tag " ++ Hex.marked 2 tag.toNat
  | refused length => "refusing " ++ toString length ++ " byte image"
  | listed count length =>
      "decoded " ++ toString count ++ " instructions from " ++ toString length ++ " bytes"
  | rendering length format =>
      "rendering " ++ toString length ++ " bytes as " ++ format.label

end Notice

/-- A value together with the notices made while it was computed, in order. -/
structure Noted (α : Type) where
  value : α
  notices : List Notice
deriving DecidableEq, Repr

end Disassembly
