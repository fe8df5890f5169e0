import Disassembly.Proofs.OpcodeTable
import Disassembly.Proofs.Tiling

/-!
# Disassembly loses nothing but operator values

Beside the disassembler stands an assembler, `Listing.assemble`, which writes down the
bytes of a listing. The listings of images are the well-formed ones
(`Listing.WellFormed`): every one of them is the listing of the image that is
assembled from it, and every image that has a listing has a well-formed one.

Two images have the same listing exactly when they agree up to the value of non-zero
operator bytes (`Listing.Fills.eq_iff`). So disassembly is a bijection between the
images that it accepts, taken up to these values, and the well-formed listings
(`disassemble_lossless`).
-/

namespace Disassembly

/-! ### Well-formed listings -/

/-- An unknown tag is one that has no meaning. -/
def OffsetSide.WellFormed : OffsetSide → Prop
  | unknown tag _ => 2 < tag
  | _ => True

instance : (side : OffsetSide) → Decidable side.WellFormed
  | .unknown tag _ => inferInstanceAs (Decidable (2 < tag))
  | .literal _ | .var _ | .address _ => .isTrue trivial

/-- Literals are two bytes wide, and what is unknown has no meaning. -/
def Operand.WellFormed : Operand → Prop
  | literal _ width => width = 2
  | offset expr => expr.lhs.WellFormed ∧ expr.rhs.WellFormed
  | dataType (.unknown byte) => 3 < byte
  | _ => True

instance : (operand : Operand) → Decidable operand.WellFormed
  | .literal _ width => inferInstanceAs (Decidable (width = 2))
  | .offset expr => inferInstanceAs (Decidable (expr.lhs.WellFormed ∧ expr.rhs.WellFormed))
  | .dataType (.unknown byte) => inferInstanceAs (Decidable (3 < byte))
  | .dataType .u8 | .dataType .u16 | .dataType .i16 | .dataType .void => .isTrue trivial
  | .var _ | .address _ | .popped | .location _ | .deref _ => .isTrue trivial

def Operand.kind : Operand → OperandKind
  | literal _ _ => .literal
  | var _ => .var
  | address _ => .address
  | popped => .popped
  | offset _ => .offset
  | location _ => .location
  | deref _ => .deref
  | dataType _ => .dataType

/-- The mnemonic and the kinds of the operands are those in the row of the opcode. An
    opcode without a row has no mnemonic and no operands. -/
structure Instruction.WellFormed (i : Instruction) : Prop where
  mnemonic_eq : i.mnemonic = (opcodeTable.lookup i.opcode).map Form.mnemonic
  kinds_eq : i.operands.map Operand.kind = (opcodeTable.lookup i.opcode).elim [] Form.kinds
  operands : ∀ operand ∈ i.operands, operand.WellFormed

instance (i : Instruction) : Decidable i.WellFormed :=
  decidable_of_iff
    (i.mnemonic = (opcodeTable.lookup i.opcode).map Form.mnemonic ∧
      i.operands.map Operand.kind = (opcodeTable.lookup i.opcode).elim [] Form.kinds ∧
      ∀ operand ∈ i.operands, operand.WellFormed)
    ⟨fun ⟨hmnemonic, hkinds, hoperands⟩ => ⟨hmnemonic, hkinds, hoperands⟩,
      fun ⟨hmnemonic, hkinds, hoperands⟩ => ⟨hmnemonic, hkinds, hoperands⟩⟩

/-- Every instruction stands where the one before it ends, the first at `position`. -/
def Listing.Chained : Nat → Listing → Prop
  | _, [] => True
  | position, i :: listing => i.address.toNat = position ∧ Chained (position + i.size) listing

instance decidableChained : (position : Nat) → (listing : Listing) →
    Decidable (Listing.Chained position listing)
  | _, [] => .isTrue trivial
  | position, i :: listing =>
      have := decidableChained (position + i.size) listing
      inferInstanceAs (Decidable (i.address.toNat = position ∧ _))

/-- Well-formed instructions that follow one another from address zero and are not too
    long for an image. -/
structure Listing.WellFormed (listing : Listing) : Prop where
  instructions : ∀ i ∈ listing, i.WellFormed
  chained : Listing.Chained 0 listing
  short : (listing.map Instruction.size).sum < Image.sizeLimit

instance (listing : Listing) : Decidable listing.WellFormed :=
  decidable_of_iff
    ((∀ i ∈ listing, i.WellFormed) ∧ Listing.Chained 0 listing ∧
      (listing.map Instruction.size).sum < Image.sizeLimit)
    ⟨fun ⟨hinstructions, hchained, hshort⟩ => ⟨hinstructions, hchained, hshort⟩,
      fun ⟨hinstructions, hchained, hshort⟩ => ⟨hinstructions, hchained, hshort⟩⟩

/-! ### The assembler -/

def OffsetSide.bytes : OffsetSide → Image
  | literal value => 0 :: bytesOfWord value
  | var id => 1 :: bytesOfWord id
  | address id => 2 :: bytesOfWord id
  | unknown tag data => tag :: bytesOfWord data

/-- An operator byte; of those that add it is one. -/
def OffsetOperator.byte : OffsetOperator → UInt8
  | add => 1
  | sub => 0

def Operand.bytes : Operand → Image
  | literal value _ => bytesOfWord value
  | var id | address id | deref id => bytesOfWord id
  | location value => bytesOfWord value
  | popped => []
  | offset expr => expr.lhs.bytes ++ expr.operator.byte :: expr.rhs.bytes
  | dataType type => [type.byte]

def Instruction.bytes (i : Instruction) : Image :=
  bytesOfWord i.opcode ++ i.operands.flatMap Operand.bytes

/-- The bytes of a listing. -/
def Listing.assemble (listing : Listing) : Image := listing.flatMap Instruction.bytes

/-! ### Well-formed listings are those that bytes spell -/

theorem OffsetSide.exists_parts {side : OffsetSide} (h : side.WellFormed) :
    ∃ tag low high data, side.bytes = [tag, low, high] ∧ LittleEndian low high data ∧
      SideParts tag data side := by
  cases side with
  | literal value => exact ⟨_, _, _, value, rfl, littleEndian_bytesOfWord value, .literal⟩
  | var id => exact ⟨_, _, _, id, rfl, littleEndian_bytesOfWord id, .var⟩
  | address id => exact ⟨_, _, _, id, rfl, littleEndian_bytesOfWord id, .address⟩
  | unknown tag data => exact ⟨_, _, _, data, rfl, littleEndian_bytesOfWord data, .unknown h⟩

theorem SideParts.wellFormed {tag : UInt8} {data : UInt16} {side : OffsetSide}
    (h : SideParts tag data side) : side.WellFormed := by
  cases h with
  | literal | var | address => exact trivial
  | unknown habove => exact habove

theorem Operand.WellFormed.spells {operand : Operand} (h : operand.WellFormed) :
    Spells operand.kind operand.bytes operand := by
  cases operand with
  | literal value width =>
    obtain rfl : width = 2 := h
    exact .literal (littleEndian_bytesOfWord value)
  | var id => exact .var (littleEndian_bytesOfWord id)
  | address id => exact .address (littleEndian_bytesOfWord id)
  | popped => exact .popped
  | offset expr =>
    obtain ⟨lhs, operator, rhs⟩ := expr
    obtain ⟨ltag, llow, lhigh, ldata, hlbytes, hldata, hlhs⟩ := OffsetSide.exists_parts h.1
    obtain ⟨rtag, rlow, rhigh, rdata, hrbytes, hrdata, hrhs⟩ := OffsetSide.exists_parts h.2
    have hoperator : OperatorByte operator.byte operator := by
      cases operator with
      | add => exact .add (by decide)
      | sub => exact .sub
    simp only [Operand.bytes, Operand.kind, hlbytes, hrbytes]
    exact .offset hldata hlhs hoperator hrdata hrhs
  | location value => exact .location (littleEndian_bytesOfWord value)
  | deref id => exact .deref (littleEndian_bytesOfWord id)
  | dataType type =>
    refine .dataType ?_
    cases type with
    | u8 => exact .u8
    | u16 => exact .u16
    | i16 => exact .i16
    | void => exact .void
    | unknown byte => exact .unknown h

theorem Spells.wellFormed {kind : OperandKind} {bytes : Image} {operand : Operand}
    (h : Spells kind bytes operand) : operand.WellFormed ∧ operand.kind = kind := by
  cases h with
  | literal | var | address | popped | location | deref => exact ⟨by constructor, rfl⟩
  | offset _ hlhs _ _ hrhs => exact ⟨⟨hlhs.wellFormed, hrhs.wellFormed⟩, rfl⟩
  | dataType htype =>
    refine ⟨?_, rfl⟩
    cases htype with
    | u8 | u16 | i16 | void => exact trivial
    | unknown habove => exact habove

theorem spellsAll_of_wellFormed {operands : List Operand}
    (h : ∀ operand ∈ operands, operand.WellFormed) :
    SpellsAll (operands.map Operand.kind) (operands.flatMap Operand.bytes) operands := by
  induction operands with
  | nil => exact .nil
  | cons operand operands ih =>
    exact .cons (h operand List.mem_cons_self).spells
      (ih fun other hother => h other (List.mem_cons_of_mem _ hother))

theorem SpellsAll.wellFormed {kinds : List OperandKind} {bytes : Image} {operands : List Operand}
    (h : SpellsAll kinds bytes operands) :
    (∀ operand ∈ operands, operand.WellFormed) ∧ operands.map Operand.kind = kinds := by
  induction h with
  | nil => exact ⟨by simp, rfl⟩
  | cons hfirst _ ih =>
    obtain ⟨hwell, hkind⟩ := hfirst.wellFormed
    exact ⟨List.forall_mem_cons.mpr ⟨hwell, ih.1⟩, by rw [List.map_cons, hkind, ih.2]⟩

theorem Instruction.WellFormed.spelledBy {i : Instruction} (h : i.WellFormed) :
    i.SpelledBy i.bytes := by
  obtain ⟨address, opcode, mnemonic, operands⟩ := i
  obtain ⟨hmnemonic, hkinds, hoperands⟩ := h
  rw [lookup_opcodeTable] at hmnemonic hkinds
  obtain rfl : mnemonic = (Form.ofOpcode? opcode).map Form.mnemonic := hmnemonic
  have hfields := spellsAll_of_wellFormed hoperands
  rw [hkinds] at hfields
  exact .mk (littleEndian_bytesOfWord opcode) hfields

theorem Instruction.SpelledBy.wellFormed {i : Instruction} {bytes : Image}
    (h : i.SpelledBy bytes) : i.WellFormed := by
  cases h with
  | mk _ hfields =>
    obtain ⟨hoperands, hkinds⟩ := hfields.wellFormed
    exact ⟨by rw [lookup_opcodeTable], by rw [lookup_opcodeTable]; exact hkinds, hoperands⟩

/-- Well-formed instructions that follow one another fill the bytes assembled from
    them. -/
theorem Listing.Chained.fills {listing : Listing} {position : Nat}
    (hchained : Listing.Chained position listing) (h : ∀ i ∈ listing, i.WellFormed) :
    listing.Fills position listing.assemble := by
  induction listing generalizing position with
  | nil => exact .nil
  | cons i listing ih =>
    obtain ⟨rfl, hrest⟩ := hchained
    obtain ⟨hfirst, hothers⟩ := List.forall_mem_cons.mp h
    have hspelled := hfirst.spelledBy
    rw [hspelled.size_eq] at hrest
    exact .cons hspelled (ih hrest hothers)

theorem Listing.Fills.wellFormed {listing : Listing} {position : Nat} {bytes : Image}
    (h : listing.Fills position bytes) :
    (∀ i ∈ listing, i.WellFormed) ∧ Listing.Chained position listing := by
  induction h with
  | nil => exact ⟨by simp, trivial⟩
  | cons hspelled _ ih =>
    refine ⟨List.forall_mem_cons.mpr ⟨hspelled.wellFormed, ih.1⟩, rfl, ?_⟩
    rw [hspelled.size_eq]
    exact ih.2

theorem wellFormed_of_disassemble {image : Image} {listing : Listing}
    (h : (disassemble image).value = .ok listing) : ∀ i ∈ listing, i.WellFormed := by
  obtain ⟨-, hfills⟩ := disassemble_eq_ok_iff.mp h
  exact hfills.wellFormed.1

/-! ### Images with the same listing -/

/-- The mask of a listing is on at the operator bytes of all its offset expressions. -/
def Listing.operatorMask (listing : Listing) : List Bool :=
  listing.flatMap Instruction.operatorMask

theorem Instruction.SpelledBy.opcode_eq_of_agree {i j : Instruction} {mask : List Bool}
    {bytes bytes' rest rest' : Image} (h : i.SpelledBy bytes) (h' : j.SpelledBy bytes')
    (hagree : Agree (i.operatorMask ++ mask) (bytes ++ rest) (bytes' ++ rest')) :
    i.opcode = j.opcode := by
  obtain ⟨low, high, fields, rfl, hopcode⟩ := h.exists_opcode
  obtain ⟨low', high', fields', rfl, hopcode'⟩ := h'.exists_opcode
  obtain ⟨hlow, hhigh, -⟩ : low = low' ∧ high = high' ∧ _ := by
    simpa [Instruction.operatorMask, Agree] using hagree
  rw [hopcode, hopcode', hlow, hhigh]

/-- Two listings that fill bytes from the same address on are equal exactly when their
    bytes agree up to the value of non-zero operator bytes. -/
theorem Listing.Fills.eq_iff {listing other : Listing} {position : Nat} {bytes bytes' : Image}
    (h : listing.Fills position bytes) (h' : other.Fills position bytes') :
    listing = other ↔ Agree listing.operatorMask bytes bytes' := by
  induction h generalizing other bytes' with
  | nil =>
    cases h' with
    | nil => exact ⟨fun _ => trivial, fun _ => rfl⟩
    | cons hspelled' _ =>
      obtain ⟨low, high, fields, rfl, -⟩ := hspelled'.exists_opcode
      simp [Agree, Listing.operatorMask]
  | @cons i listing bytes rest hspelled hrest ih =>
    generalize hposition : i.address.toNat = position at h'
    cases h' with
    | nil =>
      obtain ⟨low, high, fields, rfl, -⟩ := hspelled.exists_opcode
      simp [Agree, Listing.operatorMask, Instruction.operatorMask]
    | @cons j other bytes' rest' hspelled' hrest' =>
      have haddress : i.address = j.address := UInt16.toNat_inj.mp hposition
      have hmask : Listing.operatorMask (i :: listing) =
          i.operatorMask ++ Listing.operatorMask listing := List.flatMap_cons
      rw [hmask]
      by_cases hopcode : i.opcode = j.opcode
      · have hlength : bytes.length = bytes'.length := by
          rw [hspelled.length_eq, hspelled'.length_eq, hopcode]
        rw [← hposition, ← hlength] at hrest'
        rw [agree_append (by simpa using hspelled.size_eq)
          (by simpa [← hlength] using hspelled.size_eq), List.cons.injEq,
          hspelled.eq_iff hspelled' haddress, ih hrest']
      · -- Different opcode words: neither the listings nor the bytes agree.
        constructor
        · intro heq
          injection heq with hfirst _
          exact absurd (congrArg Instruction.opcode hfirst) hopcode
        · intro hagree
          exact absurd (hspelled.opcode_eq_of_agree hspelled' hagree) hopcode

theorem agree_iff {mask : List Bool} {a b : Image} (hmask : mask.length = a.length) :
    Agree mask a b ↔ a.length = b.length ∧
      ∀ (k : Nat) (x y : UInt8), a[k]? = some x → b[k]? = some y →
        x = y ∨ mask[k]? = some true ∧ (x = 0 ↔ y = 0) := by
  induction mask generalizing a b with
  | nil =>
    obtain rfl := List.eq_nil_of_length_eq_zero hmask.symm
    cases b <;> simp [Agree]
  | cons free mask ih =>
    obtain ⟨x, as, rfl⟩ := List.exists_cons_of_length_eq_add_one hmask.symm
    rcases b with _ | ⟨y, bs⟩
    · simp [Agree]
    · rw [Agree, ih (Nat.succ.inj hmask)]
      constructor
      · rintro ⟨hfirst, hlength, hothers⟩
        refine ⟨congrArg (· + 1) hlength, fun k => ?_⟩
        cases k with
        | zero =>
          rintro _ _ ⟨⟩ ⟨⟩
          simpa using hfirst
        | succ k => simpa using hothers k
      · rintro ⟨hlength, hbytes⟩
        refine ⟨by simpa using hbytes 0 x y rfl rfl, Nat.succ.inj hlength, fun k => ?_⟩
        simpa using hbytes (k + 1)

theorem Listing.Fills.length_operatorMask {listing : Listing} {position : Nat} {bytes : Image}
    (h : listing.Fills position bytes) : listing.operatorMask.length = bytes.length := by
  rw [← h.length_eq, Listing.operatorMask, List.length_flatMap]
  simp

/-- Disassembly is a bijection between the images that it accepts, taken up to the value
    of non-zero operator bytes, and the well-formed listings. The listings of two
    accepted images are equal exactly when the images have the same length and the same
    bytes, where at an operator byte of an offset expression it is enough that both are
    zero or both are not. The listing of an accepted image is well-formed, and every
    well-formed listing is that of the image assembled from it. -/
theorem disassemble_lossless :
    (∀ (a b : Image) (listing other : Listing), (disassemble a).value = .ok listing →
      (disassemble b).value = .ok other →
      (listing = other ↔ a.length = b.length ∧
        ∀ (k : Nat) (x y : UInt8), a[k]? = some x → b[k]? = some y →
          x = y ∨ listing.operatorMask[k]? = some true ∧ (x = 0 ↔ y = 0))) ∧
    (∀ (image : Image) (listing : Listing),
      (disassemble image).value = .ok listing → listing.WellFormed) ∧
    (∀ listing : Listing, listing.WellFormed →
      (disassemble listing.assemble).value = .ok listing) := by
  refine ⟨?_, ?_, ?_⟩
  · intro a b listing other ha hb
    obtain ⟨-, hfills⟩ := disassemble_eq_ok_iff.mp ha
    obtain ⟨-, hfills'⟩ := disassemble_eq_ok_iff.mp hb
    rw [hfills.eq_iff hfills', agree_iff hfills.length_operatorMask]
  · intro image listing hvalue
    obtain ⟨hsize, hfills⟩ := disassemble_eq_ok_iff.mp hvalue
    obtain ⟨hinstructions, hchained⟩ := hfills.wellFormed
    exact ⟨hinstructions, hchained, by rw [hfills.length_eq]; exact hsize⟩
  · intro listing h
    have hfills := h.chained.fills h.instructions
    exact disassemble_eq_ok_iff.mpr ⟨by rw [← hfills.length_eq]; exact h.short, hfills⟩

/-- An instruction with an offset expression whose operator byte is not one. The image
    assembled from its listing has another operator byte, and the same listing. -/
theorem disassemble_lossless_operator :
    let image : Image := [0xF3, 0xFF, 0x01, 0x05, 0x00, 0x80, 0x00, 0x07, 0x00, 0x10, 0x00]
    let listing : Listing := [⟨0, 0xFFF3, some "free",
      [.offset ⟨.var 0x0005, .add, .literal 0x0007⟩, .literal 0x0010 2]⟩]
    (disassemble image).value = .ok listing ∧ listing.WellFormed ∧
      (disassemble listing.assemble).value = .ok listing ∧ listing.assemble ≠ image ∧
      ∀ (k : Nat) (x y : UInt8), image[k]? = some x → listing.assemble[k]? = some y →
        x = y ∨ listing.operatorMask[k]? = some true ∧ (x = 0 ↔ y = 0) := by
  intro image listing
  have hvalue : (disassemble image).value = .ok listing := by
    simp only [image, listing]
    with_unfolding_all rfl
  have hwell : listing.WellFormed := by decide
  obtain ⟨hequal, -, hassemble⟩ := disassemble_lossless
  have hvalue' := hassemble listing hwell
  exact ⟨hvalue, hwell, hvalue', by decide,
    ((hequal image listing.assemble listing listing hvalue hvalue').mp rfl).2⟩

end Disassembly
