import Disassembly.Proofs.Patching

/-!
# Notices of decoders

Reading bytes makes no notices (`Decoder.silent_field`). Notices about an operand are made
when its bytes are all there (`Decoder.notices_operand_of_spells`), so an operand that is
cut off makes none, and the notice about an instruction comes behind those about its
operands (`Decoder.notices_instruction`).

Values without a meaning show as markers among the tokens of an instruction. The notices
about its operands are the ones that go with their markers (`SpellsAll.notices_eq`), both
for an instruction that is complete (`Decoder.notices_instruction_of_spelledBy`) and for
the complete operands of one that is cut off (`CutOff.notices_instruction`).
-/

namespace Disassembly

/-! ### Notices of decoders -/

namespace Decoder

variable {α β : Type}

theorem notices_bind_of_ok {d : Decoder α} {f : α → Decoder β} {c c' : Cursor} {a : α}
    (h : d.Gives c a c') : ((d >>= f) c).notices = (d c).notices ++ (f a c').notices := by
  obtain ⟨hresult, rfl⟩ := h
  change (Decoder.bind d f c).notices = _
  simp only [Decoder.bind, hresult]

theorem notices_bind_of_error {d : Decoder α} {f : α → Decoder β} {c : Cursor} {e : DecodeError}
    (h : (d c).result = .error e) : ((d >>= f) c).notices = (d c).notices := by
  change (Decoder.bind d f c).notices = _
  simp only [Decoder.bind, h]

/-- The decoder makes no notices, whether it succeeds or not. -/
def Silent (d : Decoder α) : Prop := ∀ c, (d c).notices = []

theorem notices_bind_silent {d : Decoder α} {f : α → Decoder β} (hf : ∀ a, Silent (f a))
    (c : Cursor) : ((d >>= f) c).notices = (d c).notices := by
  cases hresult : (d c).result with
  | error e => exact notices_bind_of_error hresult
  | ok a => rw [notices_bind_of_ok ⟨hresult, rfl⟩, hf a, List.append_nil]

theorem Silent.bind {d : Decoder α} {f : α → Decoder β} (hd : Silent d) (hf : ∀ a, Silent (f a)) :
    Silent (d >>= f) := by
  intro c
  rw [notices_bind_silent hf, hd]

theorem silent_pure (a : α) : Silent (pure a : Decoder α) := fun _ => rfl

theorem silent_byte : Silent byte := by
  intro c
  unfold byte
  split <;> rfl

theorem silent_word : Silent word :=
  silent_byte.bind fun _ => silent_byte.bind fun _ => silent_pure _

theorem silent_offsetSide : Silent offsetSide :=
  silent_byte.bind fun _ => silent_word.bind fun _ => silent_pure _

/-- The bytes of an operand are read without a word. -/
theorem silent_field (kind : OperandKind) : Silent (field kind) := by
  cases kind with
  | literal | var | address | location | deref => exact silent_word.bind fun _ => silent_pure _
  | popped => exact silent_pure _
  | offset =>
    have hexpr : Silent offsetExpr := silent_offsetSide.bind fun _ => silent_byte.bind fun _ =>
      silent_offsetSide.bind fun _ => silent_pure _
    exact hexpr.bind fun _ => silent_pure _
  | dataType => exact silent_byte.bind fun _ => silent_pure _

theorem field_gives_of_spells {kind : OperandKind} {bytes : Image} {o : Operand}
    (h : Spells kind bytes o) (position : Nat) (rest : Image) :
    (field kind).Gives ⟨position, bytes ++ rest⟩ o ⟨position + bytes.length, rest⟩ := by
  obtain ⟨other, hother, hgives⟩ := (reads_field kind).whole position bytes rest h.length_eq
  rw [h.unique hother, h.length_eq]
  exact hgives

/-- Notices about an operand are made when all of its bytes are there. -/
theorem notices_operand_of_spells {kind : OperandKind} {bytes : Image} {o : Operand}
    (h : Spells kind bytes o) (position : Nat) (rest : Image) :
    (operand kind ⟨position, bytes ++ rest⟩).notices = o.notices position := by
  have hfield := field_gives_of_spells h position rest
  have hposition : Decoder.position.Gives ⟨position, bytes ++ rest⟩ position
      ⟨position, bytes ++ rest⟩ := ⟨rfl, rfl⟩
  rw [operand, notices_bind_of_ok hposition, notices_bind_of_ok hfield, silent_field kind,
    notices_bind_silent fun _ => silent_pure _]
  rfl

theorem notices_operand_of_short {kind : OperandKind} {rest : Image}
    (h : rest.length < kind.width) (position : Nat) :
    (operand kind ⟨position, rest⟩).notices = [] := by
  have hposition : Decoder.position.Gives ⟨position, rest⟩ position ⟨position, rest⟩ := ⟨rfl, rfl⟩
  rw [operand, notices_bind_of_ok hposition,
    notices_bind_of_error ((reads_field kind).short position rest h).1, silent_field kind]
  rfl

theorem operand_gives_of_spells {kind : OperandKind} {bytes : Image} {o : Operand}
    (h : Spells kind bytes o) (position : Nat) (rest : Image) :
    (operand kind).Gives ⟨position, bytes ++ rest⟩ o ⟨position + bytes.length, rest⟩ := by
  have hposition : Decoder.position.Gives ⟨position, bytes ++ rest⟩ position
      ⟨position, bytes ++ rest⟩ := ⟨rfl, rfl⟩
  exact hposition.bind ((field_gives_of_spells h position rest).bind ⟨rfl, rfl⟩)

end Decoder

/-! ### Markers -/

/-- What a token marks as unknown. -/
def Token.unknown? : Token → Option Unknown
  | unknown what => some what
  | keyword _ | hex _ _ | typeName _ | var _ | varAddress _ | punctuation _ | lineBreak => none

/-- The notice that goes with a marker in the line of an instruction. The type byte is the
    fifth byte of its instruction. -/
def Unknown.notice (address opcode : UInt16) : Unknown → Notice
  | .opcode => .unknownOpcode address opcode
  | dataType byte => .unknownType byte (address.toNat + 4)
  | offsetTag tag => .unknownTag tag

/-- The notices that go with the markers of an operand. -/
def Operand.warnings (address opcode : UInt16) (operand : Operand) : List Notice :=
  (operand.tokens.filterMap Token.unknown?).map (Unknown.notice address opcode)

/-- The notices about an instruction: one for each marker among its operands, then one
    about the whole, with its mnemonic or because it is unknown. -/
def Instruction.notices (i : Instruction) : List Notice :=
  i.operands.flatMap (Operand.warnings i.address i.opcode) ++
    [match i.mnemonic with
      | some mnemonic => .decoded i.address i.opcode mnemonic
      | none => .unknownOpcode i.address i.opcode]

/-! ### Notices about operands -/

/-- The notices about operands that stand side by side, the first of them at a position. -/
def operandNotices : Nat → List Operand → List Notice
  | _, [] => []
  | position, operand :: operands =>
      operand.notices position ++ operandNotices (position + operand.size) operands

/-- Every type among operands of these kinds is the fifth byte of its instruction, if the
    first operand stands so many bytes behind the address. -/
def OperandKind.typesFifth : Nat → List OperandKind → Bool
  | _, [] => true
  | distance, kind :: kinds =>
      (kind != .dataType || distance == 4) && typesFifth (distance + kind.width) kinds

theorem OperandKind.typesFifth_of_append {distance : Nat} {kinds others : List OperandKind}
    (h : typesFifth distance (kinds ++ others) = true) : typesFifth distance kinds = true := by
  induction kinds generalizing distance with
  | nil => rfl
  | cons kind kinds ih =>
    rw [List.cons_append, typesFifth, Bool.and_eq_true] at h
    rw [typesFifth, Bool.and_eq_true]
    exact ⟨h.1, ih h.2⟩

theorem Form.typesFifth_kindsOf (opcode : UInt16) :
    OperandKind.typesFifth 2 (kindsOf opcode) = true := by
  have hforms : ∀ family ∈ Family.all, ∀ form ∈ family.forms,
      OperandKind.typesFifth 2 form.kinds = true := by decide
  unfold kindsOf
  cases hform : Form.ofOpcode? opcode with
  | none => rfl
  | some form =>
    obtain ⟨family, hfamily, hmem⟩ := mem_family_of_ofOpcode? hform
    exact hforms family hfamily form hmem

theorem OffsetSide.notices_eq (side : OffsetSide) (address opcode : UInt16) :
    side.notices = (side.token.unknown?.toList).map (Unknown.notice address opcode) := by
  cases side <;> rfl

/-- A notice is made about an operand for each of its markers. -/
theorem Spells.notices_eq {kind : OperandKind} {bytes : Image} {operand : Operand}
    {distance : Nat} (h : Spells kind bytes operand)
    (hplace : (kind != .dataType || distance == 4) = true) (address opcode : UInt16) :
    operand.notices (address.toNat + distance) = operand.warnings address opcode := by
  cases h with
  | literal | var | address | popped | location | deref => rfl
  | @offset _ _ _ _ _ _ _ _ _ lhs rhs =>
    rw [Operand.notices, lhs.notices_eq address opcode, rhs.notices_eq address opcode]
    cases lhs <;> cases rhs <;> rfl
  | dataType htype =>
    obtain rfl : distance = 4 := by simpa using hplace
    cases htype <;> rfl

theorem SpellsAll.notices_eq {kinds : List OperandKind} {bytes : Image} {operands : List Operand}
    {distance : Nat} (h : SpellsAll kinds bytes operands)
    (hplaces : OperandKind.typesFifth distance kinds = true) (address opcode : UInt16) :
    operandNotices (address.toNat + distance) operands =
      operands.flatMap (Operand.warnings address opcode) := by
  induction h generalizing distance with
  | nil => rfl
  | cons hfirst _ ih =>
    rw [OperandKind.typesFifth, Bool.and_eq_true] at hplaces
    rw [operandNotices, hfirst.notices_eq hplaces.1 address opcode, Nat.add_assoc, hfirst.size_eq,
      ih hplaces.2, List.flatMap_cons]

/-- Operands that are complete are noticed one after the other, and then those behind
    them. -/
theorem Decoder.notices_operands {kinds : List OperandKind} {fields : Image}
    {os : List Operand} (h : SpellsAll kinds fields os) (others : List OperandKind)
    (position : Nat) (rest : Image) :
    (Decoder.operands (kinds ++ others) ⟨position, fields ++ rest⟩).notices =
      operandNotices position os ++
        (Decoder.operands others ⟨position + fields.length, rest⟩).notices := by
  induction h generalizing position with
  | nil => rfl
  | @cons kind kinds first fields o os hfirst _ ih =>
    have hgives := Decoder.operand_gives_of_spells hfirst position (fields ++ rest)
    rw [List.cons_append, Decoder.operands, List.append_assoc, Decoder.notices_bind_of_ok hgives,
      Decoder.notices_operand_of_spells hfirst,
      Decoder.notices_bind_silent fun _ => Decoder.silent_pure _, ih, operandNotices,
      hfirst.size_eq, ← hfirst.length_eq, List.length_append, Nat.add_assoc, List.append_assoc]

/-! ### Notices about instructions -/

namespace Decoder

theorem notices_instruction_of_length_lt {c : Cursor} (hposition : c.position < 65536)
    (hlength : c.rest.length < 2) : (instruction c).notices = [] := by
  have hword : word.Starves c := reads_word.short c.position c.rest hlength
  rw [instruction, notices_bind_of_ok (address_gives hposition), notices_bind_of_error hword.1,
    silent_word]
  simp [address, hposition]

/-- Behind the opcode word come the notices about the operands, and the notice about the
    instruction if they are all there. -/
theorem notices_instruction {position : Nat} (hposition : position < 65536) (low high : UInt8)
    (rest : Image) :
    let opcode := wordOfBytes low high
    let step := operands (Form.kindsOf opcode) ⟨position + 2, rest⟩
    (instruction ⟨position, low :: high :: rest⟩).notices =
      step.notices ++
        match step.result with
        | .ok os => [Instruction.notice ⟨position.toUInt16, opcode,
            (Form.ofOpcode? opcode).map Form.mnemonic, os⟩]
        | .error _ => [] := by
  intro opcode step
  have haddress := address_gives (c := ⟨position, low :: high :: rest⟩) hposition
  have hword : word.Gives ⟨position, low :: high :: rest⟩ opcode ⟨position + 2, rest⟩ := ⟨rfl, rfl⟩
  have hsilent : (address ⟨position, low :: high :: rest⟩).notices = [] := by
    simp [address, hposition]
  rw [instruction, notices_bind_of_ok haddress, hsilent, notices_bind_of_ok hword, silent_word,
    List.nil_append, List.nil_append]
  cases hresult : step.result with
  | error e => exact (notices_bind_of_error hresult).trans (List.append_nil _).symm
  | ok os => exact notices_bind_of_ok ⟨hresult, rfl⟩

theorem notices_instruction_of_spelledBy {i : Instruction} {bytes : Image}
    (h : i.SpelledBy bytes) (rest : Image) :
    (instruction ⟨i.address.toNat, bytes ++ rest⟩).notices = i.notices := by
  cases h with
  | @mk low high address opcode fields os hopcode hfields =>
    obtain rfl := littleEndian_iff.mp hopcode
    obtain ⟨others, hothers, hresult, -⟩ :=
      (reads_operands _).whole (address.toNat + 2) fields rest hfields.length_eq
    obtain rfl := hothers.unique hfields
    have hnone (c : Cursor) : (operands [] c).notices = [] := rfl
    have hoperands := notices_operands hfields [] (address.toNat + 2) rest
    rw [List.append_nil, hnone, List.append_nil,
      hfields.notices_eq (Form.typesFifth_kindsOf _) address (wordOfBytes low high)] at hoperands
    have hinstruction := notices_instruction address.toNat_lt low high (fields ++ rest)
    simp only [hresult, hoperands, Nat.toUInt16, UInt16.ofNat_toNat] at hinstruction
    exact hinstruction

end Decoder

/-- The bytes begin an instruction at an address but end before it does. The notices are
    the ones about the operands that are complete: without a whole opcode word there are
    none, and otherwise those in front of the first one that is cut off. -/
inductive CutOff (address : UInt16) : Image → List Notice → Prop where
  | opcode {bytes : Image} (hbytes : bytes.length < 2) : CutOff address bytes []
  | operand {low high : UInt8} {opcode : UInt16} {kinds others : List OperandKind}
      {kind : OperandKind} {fields rest : Image} {operands : List Operand}
      (hopcode : LittleEndian low high opcode)
      (hkinds : Form.kindsOf opcode = kinds ++ kind :: others)
      (hfields : SpellsAll kinds fields operands) (hrest : rest.length < kind.width) :
      CutOff address (low :: high :: (fields ++ rest))
        (operands.flatMap (Operand.warnings address opcode))

theorem OperandKind.widths_append (kinds others : List OperandKind) :
    widths (kinds ++ others) = widths kinds + widths others := by
  induction kinds with
  | nil => simp [widths]
  | cons kind kinds ih =>
    simp only [widths, List.cons_append, List.map_cons, List.foldr_cons] at ih ⊢
    omega

/-- Bytes that do not suffice for all operands suffice for some of them, up to one that
    is cut off. -/
theorem exists_cut_operand {kinds : List OperandKind} {bytes : Image}
    (h : bytes.length < OperandKind.widths kinds) :
    ∃ (complete others : List OperandKind) (kind : OperandKind) (fields rest : Image)
      (operands : List Operand), kinds = complete ++ kind :: others ∧ bytes = fields ++ rest ∧
      SpellsAll complete fields operands ∧ rest.length < kind.width := by
  induction kinds generalizing bytes with
  | nil => cases h
  | cons kind kinds ih =>
    by_cases hfirst : bytes.length < kind.width
    · exact ⟨[], kinds, kind, [], bytes, [], rfl, rfl, .nil, hfirst⟩
    · have hlength : (bytes.take kind.width).length = kind.width :=
        List.length_take_of_le (Nat.not_lt.mp hfirst)
      have hothers : (bytes.drop kind.width).length < OperandKind.widths kinds := by
        simp only [OperandKind.widths, List.map_cons, List.foldr_cons] at h ⊢
        rw [List.length_drop]
        omega
      obtain ⟨operand, hoperand⟩ := exists_spells hlength
      obtain ⟨complete, others, cut, fields, rest, operands, rfl, hbytes, hfields, hrest⟩ :=
        ih hothers
      refine ⟨kind :: complete, others, cut, bytes.take kind.width ++ fields, rest,
        operand :: operands, rfl, ?_, .cons hoperand hfields, hrest⟩
      rw [List.append_assoc, ← hbytes, List.take_append_drop]

theorem SpellsAll.length_append_lt {complete others : List OperandKind} {kind : OperandKind}
    {fields rest : Image} {operands : List Operand} (h : SpellsAll complete fields operands)
    (hrest : rest.length < kind.width) :
    (fields ++ rest).length < OperandKind.widths (complete ++ kind :: others) := by
  rw [OperandKind.widths_append, List.length_append, h.length_eq]
  simp only [OperandKind.widths, List.map_cons, List.foldr_cons]
  omega

namespace CutOff

variable {address : UInt16} {bytes : Image} {notices : List Notice}

theorem starves (h : CutOff address bytes notices) :
    Decoder.instruction.Starves ⟨address.toNat, bytes⟩ := by
  cases h with
  | opcode hbytes => exact Decoder.instruction_starves_of_length_lt address.toNat_lt hbytes
  | operand hopcode hkinds hfields hrest =>
    apply Decoder.instruction_starves_of_fields address.toNat_lt
    rw [← littleEndian_iff.mp hopcode, hkinds]
    exact hfields.length_append_lt hrest

/-- The decoder makes these notices about an instruction that is cut off, and no others. -/
theorem notices_instruction (h : CutOff address bytes notices) :
    (Decoder.instruction ⟨address.toNat, bytes⟩).notices = notices := by
  cases h with
  | opcode hbytes => exact Decoder.notices_instruction_of_length_lt address.toNat_lt hbytes
  | @operand low high opcode kinds others kind fields rest operands hopcode hkinds hfields hrest =>
    obtain rfl := littleEndian_iff.mp hopcode
    have hplaces := Form.typesFifth_kindsOf (wordOfBytes low high)
    have hinstruction := Decoder.notices_instruction address.toNat_lt low high (fields ++ rest)
    rw [hkinds] at hplaces
    simp only [hkinds] at hinstruction
    -- The operand that is cut off fails without a notice, so there is none about the whole.
    obtain ⟨hresult, -⟩ := (Decoder.reads_operands (kinds ++ kind :: others)).short
      (address.toNat + 2) (fields ++ rest) (hfields.length_append_lt hrest)
    have hoperands := Decoder.notices_operands hfields (kind :: others) (address.toNat + 2) rest
    have hcut := (Decoder.reads_operand kind).short (address.toNat + 2 + fields.length) rest hrest
    rw [Decoder.operands, Decoder.notices_bind_of_error hcut.1,
      Decoder.notices_operand_of_short hrest, List.append_nil,
      hfields.notices_eq (OperandKind.typesFifth_of_append hplaces) address
        (wordOfBytes low high)] at hoperands
    simp only [hresult, hoperands, List.append_nil] at hinstruction
    exact hinstruction

theorem exists_of_starves (h : Decoder.instruction.Starves ⟨address.toNat, bytes⟩) :
    ∃ notices, CutOff address bytes notices := by
  rcases Decoder.instruction_cases (c := ⟨address.toNat, bytes⟩) address.toNat_lt with
    ⟨i, _, _, _, _, _, hgives, _⟩ | ⟨hshort, -⟩
  · cases h.1.symm.trans hgives
  · rcases bytes with _ | ⟨low, _ | ⟨high, rest⟩⟩
    · exact ⟨[], .opcode (by simp)⟩
    · exact ⟨[], .opcode (by simp)⟩
    · have hlength := hshort low high rest rfl
      simp only [List.length_cons, Form.encodedSize, Instruction.opcodeSize] at hlength
      have hwidths : rest.length < OperandKind.widths (Form.kindsOf (wordOfBytes low high)) := by
        omega
      obtain ⟨complete, others, kind, fields, rest, operands, hkinds, rfl, hfields, hrest⟩ :=
        exists_cut_operand hwidths
      exact ⟨_, .operand (littleEndian_iff.mpr rfl) hkinds hfields hrest⟩

end CutOff

end Disassembly
