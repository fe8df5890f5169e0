/-!
# Operands

The values an instruction can carry after its opcode word. Words are 16 bits
wide and variables are numbered by words. Bytes that select a meaning (a data
type, the side of an offset expression) keep their value when they select none.
-/

namespace Disassembly

/-! ### Data types -/

/-- The type a variable is created with. -/
inductive DataType where
  | u8
  | u16
  | i16
  | void
  | unknown (byte : UInt8)
deriving DecidableEq, Repr

namespace DataType

/-- The type that a type byte selects. -/
def ofByte : UInt8 → DataType
  | 0 => u8
  | 1 => u16
  | 2 => i16
  | 3 => void
  | byte => unknown byte

def byte : DataType → UInt8
  | u8 => 0
  | u16 => 1
  | i16 => 2
  | void => 3
  | unknown byte => byte

/-- The name of a type in a listing; an unknown type has none. -/
def name? : DataType → Option String
  | u8 => some "u8"
  | u16 => some "u16"
  | i16 => some "i16"
  | void => some "void"
  | unknown _ => none

end DataType

/-! ### Offset expressions -/

inductive OffsetSide where
  | literal (value : UInt16)
  | var (id : UInt16)
  | address (id : UInt16)
  | unknown (tag : UInt8) (data : UInt16)
deriving DecidableEq, Repr

/-- The side that a tag byte and its data word describe. -/
def OffsetSide.ofParts (tag : UInt8) (data : UInt16) : OffsetSide :=
  match tag with
  | 0 => literal data
  | 1 => var data
  | 2 => address data
  | tag => unknown tag data

/-- How the two sides of an offset expression are combined. -/
inductive OffsetOperator where
  | add
  | sub
deriving DecidableEq, Repr

/-- A zero byte subtracts and every other byte adds. -/
def OffsetOperator.ofByte (byte : UInt8) : OffsetOperator :=
  if byte = 0 then sub else add

def OffsetOperator.symbol : OffsetOperator → String
  | add => "+"
  | sub => "-"

/-- Two sides added or subtracted, written between square brackets. -/
structure OffsetExpr where
  lhs : OffsetSide
  operator : OffsetOperator
  rhs : OffsetSide
deriving DecidableEq, Repr

/-- The bytes of an offset expression: two tags, two data words and the operator. -/
def OffsetExpr.size : Nat := 7

/-! ### Operands -/

/-- An operand of an instruction. A literal knows how many bytes it takes; a
    popped operand comes from the stack and takes none. -/
inductive Operand where
  | literal (value : UInt16) (width : UInt8)
  | var (id : UInt16)
  | address (id : UInt16)
  | popped
  | offset (expr : OffsetExpr)
  | location (value : UInt16)
  | deref (id : UInt16)
  | dataType (type : DataType)
deriving DecidableEq, Repr

/-- The number of image bytes that an operand takes. -/
def Operand.size : Operand → Nat
  | literal _ width => width.toNat
  | var _ | address _ | location _ | deref _ => 2
  | popped => 0
  | offset _ => OffsetExpr.size
  | dataType _ => 1

end Disassembly
