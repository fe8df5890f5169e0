import Disassembly.Image.Basic
import Disassembly.InstructionSet.Form
import Disassembly.InstructionSet.Instruction

/-!
# The encoding of instructions

Which bytes stand for which words, operands and instructions, given as rules.
The rules do not say how bytes are read: a decoder is right when the value it
gives is the one that the bytes it consumed spell.

The number of bytes is fixed by the kind of an operand (`Spells.length_eq`) and by
the opcode of an instruction (`Instruction.SpelledBy.length_eq`), never by the
values that the bytes hold. Two strings of bytes spell the same operand, or the
same instruction, exactly when they agree up to the value of non-zero operator
bytes (`Spells.eq_iff`, `Instruction.SpelledBy.eq_iff`).
-/

namespace Disassembly

/-! ### Words -/

/-- Two bytes stand for a word: the first counts ones and the second counts
    multiples of 256. -/
def LittleEndian (low high : UInt8) (word : UInt16) : Prop :=
  word.toNat = low.toNat + 256 * high.toNat

theorem toNat_wordOfBytes (low high : UInt8) :
    (wordOfBytes low high).toNat = low.toNat + 256 * high.toNat := by
  have hlow := low.toNat_lt
  have hhigh := high.toNat_lt
  simp only [wordOfBytes, UInt16.toNat_add, UInt16.toNat_mul, UInt8.toNat_toUInt16,
    UInt16.reduceToNat]
  omega

theorem littleEndian_iff {low high : UInt8} {word : UInt16} :
    LittleEndian low high word ↔ word = wordOfBytes low high := by
  rw [LittleEndian, ← toNat_wordOfBytes, UInt16.toNat_inj]

/-- The word at a position of an image, if both of its bytes are there. -/
def Image.wordAt? (image : Image) (position : Nat) : Option UInt16 :=
  match image[position]?, image[position + 1]? with
  | some low, some high => some (.ofNat (low.toNat + 256 * high.toNat))
  | _, _ => none

theorem Image.wordAt?_eq_some_iff {image : Image} {position : Nat} {word : UInt16} :
    image.wordAt? position = some word ↔
      ∃ low high rest, image.drop position = low :: high :: rest ∧ word = wordOfBytes low high := by
  have hlow : image[position]? = (image.drop position)[0]? := by rw [List.getElem?_drop]; rfl
  have hhigh : image[position + 1]? = (image.drop position)[1]? := by rw [List.getElem?_drop]
  simp only [Image.wordAt?, hlow, hhigh, ← toNat_wordOfBytes, UInt16.ofNat_toNat]
  rcases image.drop position with _ | ⟨low, _ | ⟨high, rest⟩⟩
  · simp
  · simp
  · constructor
    · intro h
      exact ⟨low, high, rest, rfl, (Option.some.inj h).symm⟩
    · rintro ⟨_, _, _, heq, rfl⟩
      cases heq
      rfl

theorem wordOfBytes_inj {low high low' high' : UInt8} :
    wordOfBytes low high = wordOfBytes low' high' ↔ low = low' ∧ high = high' := by
  constructor
  · intro h
    have hnat := congrArg UInt16.toNat h
    rw [toNat_wordOfBytes, toNat_wordOfBytes] at hnat
    have hlow := low.toNat_lt
    have hlow' := low'.toNat_lt
    exact ⟨UInt8.toNat_inj.mp (by omega), UInt8.toNat_inj.mp (by omega)⟩
  · rintro ⟨rfl, rfl⟩
    rfl

theorem littleEndian_bytesOfWord (word : UInt16) :
    LittleEndian word.toUInt8 (word / 256).toUInt8 word := by
  have hword := word.toNat_lt
  simp only [LittleEndian, UInt16.toNat_toUInt8, UInt16.toNat_div, UInt16.reduceToNat]
  omega

/-! ### Bytes that select a meaning -/

/-- The meaning of a type byte. Values above 3 have none and are kept. -/
inductive TypeByte : UInt8 → DataType → Prop where
  | u8 : TypeByte 0 .u8
  | u16 : TypeByte 1 .u16
  | i16 : TypeByte 2 .i16
  | void : TypeByte 3 .void
  | unknown {byte : UInt8} (habove : 3 < byte) : TypeByte byte (.unknown byte)

/-- The meaning of a tag with its data. Tags above 2 have none; they are kept
    together with the data. -/
inductive SideParts : UInt8 → UInt16 → OffsetSide → Prop where
  | literal {data : UInt16} : SideParts 0 data (.literal data)
  | var {data : UInt16} : SideParts 1 data (.var data)
  | address {data : UInt16} : SideParts 2 data (.address data)
  | unknown {tag : UInt8} {data : UInt16} (habove : 2 < tag) :
      SideParts tag data (.unknown tag data)

/-- The meaning of an operator byte: zero subtracts and all else adds. -/
inductive OperatorByte : UInt8 → OffsetOperator → Prop where
  | sub : OperatorByte 0 .sub
  | add {byte : UInt8} (hne : byte ≠ 0) : OperatorByte byte .add

theorem typeByte_iff {byte : UInt8} {type : DataType} :
    TypeByte byte type ↔ type = .ofByte byte := by
  constructor
  · intro h
    cases h with
    | u8 | u16 | i16 | void => rfl
    | unknown habove =>
      unfold DataType.ofByte
      split
      case h_5 => rfl
      all_goals exact absurd habove (by decide)
  · rintro rfl
    unfold DataType.ofByte
    split
    · exact .u8
    · exact .u16
    · exact .i16
    · exact .void
    · exact .unknown (by grind)

theorem sideParts_iff {tag : UInt8} {data : UInt16} {side : OffsetSide} :
    SideParts tag data side ↔ side = .ofParts tag data := by
  constructor
  · intro h
    cases h with
    | literal | var | address => rfl
    | unknown habove =>
      unfold OffsetSide.ofParts
      split
      case h_4 => rfl
      all_goals exact absurd habove (by decide)
  · rintro rfl
    unfold OffsetSide.ofParts
    split
    · exact .literal
    · exact .var
    · exact .address
    · exact .unknown (by grind)

theorem operatorByte_iff {byte : UInt8} {operator : OffsetOperator} :
    OperatorByte byte operator ↔ operator = .ofByte byte := by
  constructor
  · intro h
    cases h with
    | sub => rfl
    | add hne => exact (if_neg hne).symm
  · rintro rfl
    unfold OffsetOperator.ofByte
    split
    · rename_i hzero
      rw [hzero]
      exact .sub
    · rename_i hne
      exact .add hne

theorem DataType.byte_ofByte (byte : UInt8) : (DataType.ofByte byte).byte = byte := by
  unfold DataType.ofByte
  split <;> rfl

theorem DataType.ofByte_inj {byte byte' : UInt8} :
    DataType.ofByte byte = DataType.ofByte byte' ↔ byte = byte' := by
  constructor
  · intro h
    rw [← DataType.byte_ofByte byte, h, DataType.byte_ofByte]
  · rintro rfl
    rfl

theorem OffsetSide.ofParts_inj {tag tag' : UInt8} {data data' : UInt16} :
    OffsetSide.ofParts tag data = OffsetSide.ofParts tag' data' ↔ tag = tag' ∧ data = data' := by
  unfold OffsetSide.ofParts
  split <;> split <;> grind

theorem OffsetOperator.ofByte_eq_iff {byte byte' : UInt8} :
    OffsetOperator.ofByte byte = OffsetOperator.ofByte byte' ↔ (byte = 0 ↔ byte' = 0) := by
  unfold OffsetOperator.ofByte
  split <;> split <;> simp_all

/-! ### Operands -/

def OperandKind.width : OperandKind → Nat
  | literal | var | address | location | deref => 2
  | popped => 0
  | offset => 7
  | dataType => 1

/-- The bytes of an operand of some kind. An offset expression is the tag and the
    data of its left side, the operator, and the tag and the data of its right
    side. -/
inductive Spells : OperandKind → Image → Operand → Prop where
  | literal {low high : UInt8} {value : UInt16} (hvalue : LittleEndian low high value) :
      Spells .literal [low, high] (.literal value 2)
  | var {low high : UInt8} {id : UInt16} (hid : LittleEndian low high id) :
      Spells .var [low, high] (.var id)
  | address {low high : UInt8} {id : UInt16} (hid : LittleEndian low high id) :
      Spells .address [low, high] (.address id)
  | popped : Spells .popped [] .popped
  | offset {ltag llow lhigh op rtag rlow rhigh : UInt8} {ldata rdata : UInt16}
      {lhs rhs : OffsetSide} {operator : OffsetOperator}
      (hldata : LittleEndian llow lhigh ldata) (hlhs : SideParts ltag ldata lhs)
      (hop : OperatorByte op operator)
      (hrdata : LittleEndian rlow rhigh rdata) (hrhs : SideParts rtag rdata rhs) :
      Spells .offset [ltag, llow, lhigh, op, rtag, rlow, rhigh] (.offset ⟨lhs, operator, rhs⟩)
  | location {low high : UInt8} {value : UInt16} (hvalue : LittleEndian low high value) :
      Spells .location [low, high] (.location value)
  | deref {low high : UInt8} {id : UInt16} (hid : LittleEndian low high id) :
      Spells .deref [low, high] (.deref id)
  | dataType {byte : UInt8} {type : DataType} (htype : TypeByte byte type) :
      Spells .dataType [byte] (.dataType type)

/-- The bytes of operands that follow one another without gaps. -/
inductive SpellsAll : List OperandKind → Image → List Operand → Prop where
  | nil : SpellsAll [] [] []
  | cons {kind : OperandKind} {kinds : List OperandKind} {bytes rest : Image}
      {operand : Operand} {operands : List Operand}
      (hfirst : Spells kind bytes operand) (hothers : SpellsAll kinds rest operands) :
      SpellsAll (kind :: kinds) (bytes ++ rest) (operand :: operands)

def OperandKind.widths (kinds : List OperandKind) : Nat := (kinds.map width).foldr (· + ·) 0

/-- The kind alone decides how many bytes an operand has. -/
theorem Spells.length_eq {kind : OperandKind} {bytes : Image} {operand : Operand}
    (h : Spells kind bytes operand) : bytes.length = kind.width := by
  cases h <;> rfl

theorem Spells.size_eq {kind : OperandKind} {bytes : Image} {operand : Operand}
    (h : Spells kind bytes operand) : operand.size = kind.width := by
  cases h <;> rfl

theorem SpellsAll.length_eq {kinds : List OperandKind} {bytes : Image} {operands : List Operand}
    (h : SpellsAll kinds bytes operands) : bytes.length = OperandKind.widths kinds := by
  induction h with
  | nil => rfl
  | cons hfirst _ ih =>
    rw [List.length_append, hfirst.length_eq, ih]
    rfl

theorem SpellsAll.size_eq {kinds : List OperandKind} {bytes : Image} {operands : List Operand}
    (h : SpellsAll kinds bytes operands) :
    (operands.map Operand.size).foldr (· + ·) 0 = OperandKind.widths kinds := by
  induction h with
  | nil => rfl
  | cons hfirst _ ih =>
    rw [List.map_cons, List.foldr_cons, hfirst.size_eq, ih]
    rfl

/-! ### Instructions -/

/-- The kinds of the operands behind an opcode word; an opcode without a form has
    no operands. -/
def Form.kindsOf (opcode : UInt16) : List OperandKind :=
  (Form.ofOpcode? opcode).elim [] Form.kinds

def Form.encodedSize (opcode : UInt16) : Nat :=
  Instruction.opcodeSize + OperandKind.widths (kindsOf opcode)

/-- The bytes of an instruction: its opcode word and its operands. The address is
    not among them. -/
inductive Instruction.SpelledBy : Instruction → Image → Prop where
  | mk {low high : UInt8} {address opcode : UInt16} {fields : Image} {operands : List Operand}
      (hopcode : LittleEndian low high opcode)
      (hfields : SpellsAll (Form.kindsOf opcode) fields operands) :
      SpelledBy ⟨address, opcode, (Form.ofOpcode? opcode).map Form.mnemonic, operands⟩
        (low :: high :: fields)

namespace Instruction.SpelledBy

variable {i j : Instruction} {bytes bytes' : Image}

theorem exists_opcode (h : i.SpelledBy bytes) :
    ∃ low high fields, bytes = low :: high :: fields ∧ i.opcode = wordOfBytes low high := by
  cases h with
  | mk hopcode hfields => exact ⟨_, _, _, rfl, littleEndian_iff.mp hopcode⟩

theorem wordAt?_eq {image rest : Image} {position : Nat} (h : i.SpelledBy bytes)
    (hdrop : image.drop position = bytes ++ rest) : image.wordAt? position = some i.opcode := by
  obtain ⟨low, high, fields, rfl, hopcode⟩ := h.exists_opcode
  exact Image.wordAt?_eq_some_iff.mpr ⟨low, high, fields ++ rest, hdrop, hopcode⟩

/-- The opcode alone decides how many bytes an instruction has. -/
theorem length_eq (h : i.SpelledBy bytes) : bytes.length = Form.encodedSize i.opcode := by
  cases h with
  | mk hopcode hfields =>
    simp only [List.length_cons, hfields.length_eq, Form.encodedSize, Instruction.opcodeSize]
    omega

theorem size_eq (h : i.SpelledBy bytes) : i.size = bytes.length := by
  rw [h.length_eq]
  cases h with
  | mk hopcode hfields => rw [Instruction.size, hfields.size_eq, Form.encodedSize]

end Instruction.SpelledBy

/-! ### Agreement up to operator bytes -/

/-- Two strings of bytes are equal where the mask is off; where it is on, both are
    zero or both are not. -/
def Agree : List Bool → Image → Image → Prop
  | [], [], [] => True
  | free :: mask, a :: as, b :: bs => (a = b ∨ free = true ∧ (a = 0 ↔ b = 0)) ∧ Agree mask as bs
  | _, _, _ => False

theorem Agree.refl {mask : List Bool} {bytes : Image} (h : mask.length = bytes.length) :
    Agree mask bytes bytes := by
  induction mask generalizing bytes with
  | nil =>
    rw [List.eq_nil_of_length_eq_zero h.symm]
    exact trivial
  | cons free mask ih =>
    obtain ⟨a, as, rfl⟩ := List.exists_cons_of_length_eq_add_one h.symm
    exact ⟨Or.inl rfl, ih (Nat.succ.inj h)⟩

theorem agree_append {mask mask' : List Bool} {x x' y y' : Image}
    (hx : mask.length = x.length) (hy : mask.length = y.length) :
    Agree (mask ++ mask') (x ++ x') (y ++ y') ↔ Agree mask x y ∧ Agree mask' x' y' := by
  induction mask generalizing x y with
  | nil =>
    rw [List.eq_nil_of_length_eq_zero hx.symm, List.eq_nil_of_length_eq_zero hy.symm]
    simp [Agree]
  | cons free mask ih =>
    obtain ⟨a, as, rfl⟩ := List.exists_cons_of_length_eq_add_one hx.symm
    obtain ⟨b, bs, rfl⟩ := List.exists_cons_of_length_eq_add_one hy.symm
    simp only [List.cons_append, Agree, ih (Nat.succ.inj hx) (Nat.succ.inj hy), and_assoc]

/-- The mask of an operand is on at the operator byte of an offset expression,
    which is the fourth of its seven bytes, and off at all others. -/
def Operand.operatorMask : Operand → List Bool
  | offset _ => [false, false, false, true, false, false, false]
  | operand => List.replicate operand.size false

def Instruction.operatorMask (i : Instruction) : List Bool :=
  false :: false :: i.operands.flatMap Operand.operatorMask

@[simp] theorem Operand.length_operatorMask (operand : Operand) :
    operand.operatorMask.length = operand.size := by
  cases operand <;> simp [operatorMask, size, OffsetExpr.size]

/-- Only the value of a non-zero operator byte is lost in an operand. -/
theorem Spells.eq_iff {kind : OperandKind} {bytes bytes' : Image} {operand other : Operand}
    (h : Spells kind bytes operand) (h' : Spells kind bytes' other) :
    operand = other ↔ Agree operand.operatorMask bytes bytes' := by
  cases h with
  | literal hword | var hword | address hword | location hword | deref hword =>
    cases h'
    rename_i hword'
    rw [littleEndian_iff.mp hword, littleEndian_iff.mp hword']
    simp [Agree, Operand.operatorMask, Operand.size, wordOfBytes_inj]
  | popped =>
    cases h'
    simp [Agree, Operand.operatorMask, Operand.size]
  | offset hldata hlhs hop hrdata hrhs =>
    cases h' with
    | offset hldata' hlhs' hop' hrdata' hrhs' =>
      rw [sideParts_iff.mp hlhs, littleEndian_iff.mp hldata, operatorByte_iff.mp hop,
        sideParts_iff.mp hrhs, littleEndian_iff.mp hrdata]
      rw [sideParts_iff.mp hlhs', littleEndian_iff.mp hldata', operatorByte_iff.mp hop',
        sideParts_iff.mp hrhs', littleEndian_iff.mp hrdata']
      simp only [Agree, Operand.operatorMask, Operand.offset.injEq, OffsetExpr.mk.injEq,
        OffsetSide.ofParts_inj, OffsetOperator.ofByte_eq_iff, wordOfBytes_inj]
      grind
  | dataType htype =>
    cases h' with
    | dataType htype' =>
      rw [typeByte_iff.mp htype, typeByte_iff.mp htype']
      simp [Agree, Operand.operatorMask, Operand.size, DataType.ofByte_inj]

theorem Spells.unique {kind : OperandKind} {bytes : Image} {operand other : Operand}
    (h : Spells kind bytes operand) (h' : Spells kind bytes other) : operand = other := by
  rw [h.eq_iff h']
  apply Agree.refl
  rw [Operand.length_operatorMask, h.size_eq, h.length_eq]

theorem SpellsAll.eq_iff {kinds : List OperandKind} {bytes bytes' : Image}
    {operands others : List Operand} (h : SpellsAll kinds bytes operands)
    (h' : SpellsAll kinds bytes' others) :
    operands = others ↔ Agree (operands.flatMap Operand.operatorMask) bytes bytes' := by
  induction h generalizing bytes' others with
  | nil =>
    cases h'
    simp [Agree]
  | cons hfirst hothers ih =>
    cases h' with
    | cons hfirst' hothers' =>
      have hleft := hfirst.size_eq.trans hfirst.length_eq.symm
      have hright := hfirst.size_eq.trans hfirst'.length_eq.symm
      rw [List.flatMap_cons, agree_append (by simpa using hleft) (by simpa using hright),
        List.cons.injEq, hfirst.eq_iff hfirst', ih hothers']

theorem length_flatMap_operatorMask (operands : List Operand) :
    (operands.flatMap Operand.operatorMask).length =
      (operands.map Operand.size).foldr (· + ·) 0 := by
  induction operands with
  | nil => rfl
  | cons operand operands ih => simp [ih]

theorem SpellsAll.unique {kinds : List OperandKind} {bytes : Image} {operands others : List Operand}
    (h : SpellsAll kinds bytes operands) (h' : SpellsAll kinds bytes others) :
    operands = others := by
  rw [h.eq_iff h']
  apply Agree.refl
  rw [length_flatMap_operatorMask, h.size_eq, h.length_eq]

@[simp] theorem Instruction.length_operatorMask (i : Instruction) :
    i.operatorMask.length = i.size := by
  simp only [operatorMask, List.length_cons, length_flatMap_operatorMask, size, opcodeSize]
  omega

namespace Instruction.SpelledBy

variable {i j : Instruction} {bytes bytes' : Image}

/-- Only the value of non-zero operator bytes is lost in an instruction. -/
theorem eq_iff (h : i.SpelledBy bytes) (h' : j.SpelledBy bytes')
    (haddress : i.address = j.address) :
    i = j ↔ Agree i.operatorMask bytes bytes' := by
  cases h with
  | mk hopcode hfields =>
    cases h' with
    | mk hopcode' hfields' =>
      rw [littleEndian_iff] at hopcode hopcode'
      subst hopcode hopcode' haddress
      constructor
      · intro heq
        injection heq with _ hopcodes _ hoperands
        obtain ⟨hlow, hhigh⟩ := wordOfBytes_inj.mp hopcodes
        rw [← hopcodes] at hfields'
        exact ⟨Or.inl hlow, Or.inl hhigh, (hfields.eq_iff hfields').mp hoperands⟩
      · intro hagree
        obtain ⟨hlow, hhigh, hrest⟩ : _ = _ ∧ _ = _ ∧ _ := by
          simpa [Instruction.operatorMask, Agree] using hagree
        subst hlow hhigh
        rw [(hfields.eq_iff hfields').mpr hrest]

theorem unique (h : i.SpelledBy bytes) (h' : j.SpelledBy bytes) (haddress : i.address = j.address) :
    i = j := by
  rw [h.eq_iff h' haddress]
  apply Agree.refl
  rw [length_operatorMask, h.size_eq]

/-- Where one instruction ends does not depend on what follows it. -/
theorem append_inj {rest rest' : Image} (h : i.SpelledBy bytes) (h' : j.SpelledBy bytes')
    (heq : bytes ++ rest = bytes' ++ rest') : bytes = bytes' ∧ rest = rest' := by
  have hlength := h.length_eq
  have hlength' := h'.length_eq
  obtain ⟨low, high, fields, rfl, hopcode⟩ := h.exists_opcode
  obtain ⟨low', high', fields', rfl, hopcode'⟩ := h'.exists_opcode
  obtain ⟨rfl, rfl, _⟩ : low = low' ∧ high = high' ∧ _ := by simpa using heq
  exact List.append_inj heq (by rw [hlength, hlength', hopcode, hopcode'])

end Instruction.SpelledBy

end Disassembly
