import Disassembly.Image.Decoder
import Disassembly.InstructionSet.Form
import Disassembly.InstructionSet.Instruction

/-!
# Decoding instructions

An instruction is its opcode word followed by the operands that the form of the
opcode lists. Notices about values without a meaning are made when the operand
that holds them is complete; the notice about the instruction comes after all
of its operands.
-/

namespace Disassembly

/-! ### Notices -/

/-- A side with an unknown tag is worth a notice. -/
def OffsetSide.notices : OffsetSide → List Notice
  | unknown tag _ => [.unknownTag tag]
  | _ => []

/-- The notices about an operand whose first byte stands at `position`. -/
def Operand.notices (position : Nat) : Operand → List Notice
  | dataType (.unknown byte) => [.unknownType byte position]
  | offset expr => expr.lhs.notices ++ expr.rhs.notices
  | _ => []

/-- The notice about a complete instruction. -/
def Instruction.notice (i : Instruction) : Notice :=
  match i.mnemonic with
  | some mnemonic => .decoded i.address i.opcode mnemonic
  | none => .unknownOpcode i.address i.opcode

namespace Decoder

/-! ### Operands -/

/-- One side of an offset expression: its tag, then its data. -/
def offsetSide : Decoder OffsetSide := do
  let tag ← byte
  let data ← word
  return .ofParts tag data

/-- An offset expression: left side, operator, right side. -/
def offsetExpr : Decoder OffsetExpr := do
  let lhs ← offsetSide
  let operator ← byte
  let rhs ← offsetSide
  return ⟨lhs, .ofByte operator, rhs⟩

/-- The bytes of one operand. -/
def field : OperandKind → Decoder Operand
  | .literal => do return .literal (← word) 2
  | .var => do return .var (← word)
  | .address => do return .address (← word)
  | .popped => return .popped
  | .offset => do return .offset (← offsetExpr)
  | .location => do return .location (← word)
  | .deref => do return .deref (← word)
  | .dataType => do return .dataType (.ofByte (← byte))

/-- One operand, with the notices about it. -/
def operand (kind : OperandKind) : Decoder Operand := do
  let start ← position
  let operand ← field kind
  notify (operand.notices start)
  return operand

/-- Operands from left to right, without gaps. -/
def operands : List OperandKind → Decoder (List Operand)
  | [] => return []
  | kind :: kinds => do
      let first ← operand kind
      let others ← operands kinds
      return first :: others

/-! ### Instructions -/

/-- The instruction at the cursor. An opcode without a form stands alone. -/
def instruction : Decoder Instruction := do
  let address ← address
  let opcode ← word
  let form := Form.ofOpcode? opcode
  let operands ← operands (form.elim [] Form.kinds)
  let decoded : Instruction := ⟨address, opcode, form.map Form.mnemonic, operands⟩
  notify [decoded.notice]
  return decoded

/-! ### Consumption -/

theorem advances_offsetSide : Advances 3 offsetSide :=
  advances_byte.bind fun _ => advances_word.bind fun _ => advances_pure _

theorem advances_offsetExpr : Advances 7 offsetExpr :=
  advances_offsetSide.bind fun _ =>
    advances_byte.bind fun _ => advances_offsetSide.bind fun _ => advances_pure _

theorem advances_field (kind : OperandKind) : Advances 0 (field kind) := by
  cases kind with
  | literal | var | address | location | deref =>
    exact (advances_word.bind fun _ => advances_pure _).weaken
  | popped => exact advances_pure _
  | offset => exact (advances_offsetExpr.bind fun _ => advances_pure _).weaken
  | dataType => exact (advances_byte.bind fun _ => advances_pure _).weaken

theorem advances_operand (kind : OperandKind) : Advances 0 (operand kind) :=
  advances_position.bind fun _ => (advances_field kind).bind fun _ =>
    (advances_notify _).bind fun _ => advances_pure _

theorem advances_operands (kinds : List OperandKind) : Advances 0 (operands kinds) := by
  induction kinds with
  | nil => exact advances_pure _
  | cons kind kinds ih =>
    exact (advances_operand kind).bind fun _ => ih.bind fun _ => advances_pure _

/-- A complete instruction consumes its opcode word at least. -/
theorem advances_instruction : Advances 2 instruction :=
  advances_address.bind fun _ => advances_word.bind fun _ =>
    (advances_operands _).bind fun _ => (advances_notify _).bind fun _ => advances_pure _

end Decoder

/-! ### Lengths -/

/-- An opcode word followed by as many copies of one byte as an instruction can need. -/
def Image.probe (opcode : UInt16) (fill : UInt8) : Image :=
  bytesOfWord opcode ++ List.replicate (2 * OffsetExpr.size) fill

/-- The number of bytes that an instruction with this opcode takes, found by
    decoding one whose operands are all zero. -/
def instructionLength (opcode : UInt16) : Noted Nat :=
  let step := Decoder.instruction (.start (.probe opcode 0))
  match step.result with
  | .ok i => ⟨i.size, step.notices⟩
  | .error _ => ⟨Instruction.maxSize, step.notices⟩

end Disassembly
