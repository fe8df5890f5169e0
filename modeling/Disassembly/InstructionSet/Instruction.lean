import Disassembly.InstructionSet.Operand

/-!
# Instructions

One decoded instruction: where it stands, its opcode word, the mnemonic if the
opcode is known, and its operands.
-/

namespace Disassembly

/-- An instruction of a listing. An unknown opcode has no mnemonic. -/
structure Instruction where
  address : UInt16
  opcode : UInt16
  mnemonic : Option String
  operands : List Operand
deriving DecidableEq, Repr

namespace Instruction

def opcodeSize : Nat := 2

/-- The most bytes that an instruction can take: its opcode and two offset expressions. -/
def maxSize : Nat := opcodeSize + 2 * OffsetExpr.size

def isKnown (i : Instruction) : Bool := i.mnemonic.isSome

/-- The number of image bytes that the instruction takes. -/
def size (i : Instruction) : Nat :=
  opcodeSize + (i.operands.map Operand.size).foldr (· + ·) 0

end Instruction

end Disassembly
