/-!
# Instruction forms

The instruction set as data. Every known opcode has a form: a mnemonic and the
kinds of the operands that follow the opcode word, in order. Opcodes come in
families of consecutive words, and `Form.ofOpcode?` looks a word up in them.
-/

namespace Disassembly

/-- What an instruction form expects in one operand place. -/
inductive OperandKind where
  | literal
  | var
  | address
  | popped
  | offset
  | location
  | deref
  | dataType
deriving DecidableEq, Repr

/-- A mnemonic with the kinds of its operands. -/
structure Form where
  mnemonic : String
  kinds : List OperandKind
deriving DecidableEq, Repr

/-- Forms whose opcodes follow one another, the first of them at `first`. -/
structure Family where
  first : UInt16
  forms : List Form
deriving DecidableEq, Repr

namespace Family

/-- The form of an opcode, if the opcode belongs to the family. -/
def form? (family : Family) (opcode : UInt16) : Option Form :=
  if family.first ≤ opcode then
    family.forms[opcode.toNat - family.first.toNat]?
  else
    none

/-- A family whose members take no operands. -/
def bare (first : UInt16) (mnemonics : List String) : Family :=
  ⟨first, mnemonics.map (Form.mk · [])⟩

/-- A family whose members share one mnemonic. -/
def sharing (first : UInt16) (mnemonic : String) (kinds : List (List OperandKind)) : Family :=
  ⟨first, kinds.map (Form.mk mnemonic)⟩

open OperandKind

/-- The sources that a store or move can take: three spellings of a literal,
    then a variable, the address of a variable, and the top of the stack. -/
def sources (target : OperandKind) : List (List OperandKind) :=
  [[target, literal], [target, literal], [target, literal], [target, var],
   [target, address], [target, popped]]

/-- All families of the instruction set, in the order of their opcodes. -/
def all : List Family :=
  [ bare 0x0000 ["nop", "ret", "halt"],
    sharing 0x0500 "vnew" [[var, dataType]],
    sharing 0x0900 "alloc" [[var, literal]],
    bare 0x0A00 ["inc", "dec", "add", "sub", "div", "mul", "mod"],
    bare 0x0AA0 ["and", "or", "xor", "not"],
    bare 0x0AB0 ["lsr", "rsr"],
    bare 0x0AC0 ["cmp", "ncmp"],
    bare 0x0AD0 ["equ", "neq", "lwr", "lwr_equ", "grt", "grt_equ"],
    sharing 0x1000 "str" (sources var),
    sharing 0x1100 "mov" (sources var ++ [[var, offset]]),
    sharing 0x1110 "mov" (sources location ++ [[location, offset]]),
    -- The fourth and fifth member name a location although the others name an offset.
    sharing 0x1120 "mov"
      [[offset, literal], [offset, literal], [offset, literal], [location, var],
       [location, address], [offset, popped], [offset, offset]],
    sharing 0x1200 "ptr"
      [[var, literal], [var, var], [var, deref], [var, popped],
       [var, offset]],
    sharing 0x1500 "goto" [[location]],
    sharing 0x1510 "call" [[location]],
    sharing 0x2000 "push" [[literal], [literal], [literal], [var], [address]],
    bare 0x2100 ["pop"],
    sharing 0xFFF0 "drop" [[var]],
    sharing 0xFFF1 "free" [[var], [var, literal], [offset, literal]] ]

end Family

/-- The form of an opcode; an opcode outside all families has none. -/
def Form.ofOpcode? (opcode : UInt16) : Option Form :=
  Family.all.findSome? (·.form? opcode)

end Disassembly
