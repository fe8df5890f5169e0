import Disassembly.InstructionSet.Instruction
import Disassembly.Listing.Token

/-!
# Lines

A listing line is the address, the opcode, the mnemonic and the operands of one
instruction, in this order, with a comma between operands and a line break at
the end.
-/

namespace Disassembly

/-- A type is shown by its name, or marked if it has none. -/
def DataType.token (type : DataType) : Token :=
  match type.name? with
  | some name => .typeName name
  | none => .unknown (.dataType type.byte)

/-- One side of an offset expression is a single token. -/
def OffsetSide.token : OffsetSide → Token
  | literal value => .word value
  | var id => .var id
  | address id => .varAddress id
  | unknown tag _ => .unknown (.offsetTag tag)

/-- An offset expression stands between square brackets. -/
def OffsetExpr.tokens (e : OffsetExpr) : List Token :=
  [.punctuation "[", e.lhs.token, .punctuation e.operator.symbol, e.rhs.token, .punctuation "]"]

/-- The tokens of an operand. A literal shows two digits for each of its bytes. -/
def Operand.tokens : Operand → List Token
  | literal value width => [.hex value (2 * width)]
  | var id => [.var id]
  | address id => [.varAddress id]
  | popped => [.keyword "pop"]
  | offset expr => expr.tokens
  | location value => [.word value]
  | deref id => [.punctuation "*", .var id]
  | dataType type => [type.token]

namespace Instruction

/-- The mnemonic, or the mark of an unknown opcode. -/
def head (i : Instruction) : Token :=
  match i.mnemonic with
  | some mnemonic => .keyword mnemonic
  | none => .unknown .opcode

/-- What the line shows after address and opcode. -/
def body (i : Instruction) : List Token :=
  i.head :: List.intercalate [.comma] (i.operands.map Operand.tokens)

def line (i : Instruction) : List Token :=
  [.word i.address, .word i.opcode] ++ i.body ++ [.lineBreak]

end Instruction

end Disassembly
