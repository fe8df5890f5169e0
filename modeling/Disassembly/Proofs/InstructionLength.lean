import Disassembly.Proofs.Reading

/-!
# The length of an instruction

Three accounts of how many bytes an instruction takes: how far decoding it moves
the cursor, the size that the decoded instruction states, and the length found by
decoding a probe whose operands are all zero. They agree for every opcode, at every
address and whatever the operand bytes are (`instruction_lengths_agree`).

All three are compared with `Form.encodedSize`, which adds up the widths of the
operand kinds. No form is wider than two offset expressions
(`Form.widths_kindsOf_le`), so a probe always holds a whole instruction.
-/

namespace Disassembly

/-! ### Bounds -/

theorem Form.mem_family_of_ofOpcode? {opcode : UInt16} {form : Form}
    (h : Form.ofOpcode? opcode = some form) : ∃ family ∈ Family.all, form ∈ family.forms := by
  obtain ⟨family, hfamily, hform⟩ := List.exists_of_findSome?_eq_some h
  refine ⟨family, hfamily, ?_⟩
  unfold Family.form? at hform
  split at hform
  · exact List.mem_of_getElem? hform
  · cases hform

/-- The operands of an instruction take no more bytes than two offset expressions. -/
theorem Form.widths_kindsOf_le (opcode : UInt16) :
    OperandKind.widths (kindsOf opcode) ≤ 2 * OffsetExpr.size := by
  have hforms : ∀ family ∈ Family.all, ∀ form ∈ family.forms,
      OperandKind.widths form.kinds ≤ 2 * OffsetExpr.size := by decide
  unfold kindsOf
  cases hform : Form.ofOpcode? opcode with
  | none => exact Nat.zero_le _
  | some form =>
    obtain ⟨family, hfamily, hmem⟩ := mem_family_of_ofOpcode? hform
    exact hforms family hfamily form hmem

theorem Form.two_le_encodedSize (opcode : UInt16) : 2 ≤ encodedSize opcode :=
  Nat.le_add_right _ _

theorem Instruction.SpelledBy.two_le_length {i : Instruction} {bytes : Image}
    (h : i.SpelledBy bytes) : 2 ≤ bytes.length := by
  rw [h.length_eq]
  exact Form.two_le_encodedSize i.opcode

theorem Form.encodedSize_le_maxSize (opcode : UInt16) :
    encodedSize opcode ≤ Instruction.maxSize :=
  Nat.add_le_add_left (widths_kindsOf_le opcode) _

/-! ### The probe -/

/-- A probe holds a whole instruction, whatever it is filled with. -/
theorem probe_gives (opcode : UInt16) (fill : UInt8) :
    ∃ i : Instruction, (Decoder.instruction (.start (.probe opcode fill))).result = .ok i ∧
      i.size = Form.encodedSize opcode := by
  let width := OperandKind.widths (Form.kindsOf opcode)
  have hopcode := littleEndian_iff.mp (littleEndian_bytesOfWord opcode)
  obtain ⟨i, -, hspelled, hresult, -⟩ := Decoder.instruction_gives_of_fields
    opcode.toUInt8 (opcode / 256).toUInt8 (List.replicate width fill)
    (List.replicate (2 * OffsetExpr.size - width) fill) (by decide : 0 < 65536)
    (by rw [← hopcode, List.length_replicate])
  have hprobe : Image.probe opcode fill = opcode.toUInt8 :: (opcode / 256).toUInt8 ::
      List.replicate width fill ++ List.replicate (2 * OffsetExpr.size - width) fill := by
    have hwidth : 2 * OffsetExpr.size = width + (2 * OffsetExpr.size - width) :=
      (Nat.add_sub_of_le (Form.widths_kindsOf_le opcode)).symm
    rw [List.cons_append, List.cons_append, List.replicate_append_replicate, ← hwidth]
    rfl
  refine ⟨i, by rw [hprobe]; exact hresult, ?_⟩
  rw [hspelled.size_eq, Form.encodedSize, Instruction.opcodeSize]
  simp only [List.length_cons, List.length_replicate, width]
  omega

theorem instructionLength_value (opcode : UInt16) :
    (instructionLength opcode).value = Form.encodedSize opcode := by
  obtain ⟨i, hresult, hsize⟩ := probe_gives opcode 0
  simp only [instructionLength, hresult, hsize]

/-! ### Decoding inside an image -/

namespace Decoder

variable {image : Image} {position : Nat} {i : Instruction}

/-- A decoded instruction begins with the word at the cursor and lies inside the
    image, and the cursor moves by its size. -/
theorem instruction_after_ok (haddress : position ≤ 65535)
    (h : (instruction (.after image position)).result = .ok i) :
    i.address.toNat = position ∧ image.wordAt? position = some i.opcode ∧
      i.size = Form.encodedSize i.opcode ∧ position + i.size ≤ image.length ∧
      (instruction (.after image position)).cursor = .after image (position + i.size) := by
  obtain ⟨bytes, rest, heq, hposition, hspelled, hcursor⟩ :=
    spelledBy_of_instruction_ok (Nat.lt_succ_of_le haddress) h
  change image.drop position = bytes ++ rest at heq
  have hrest : image.drop (position + bytes.length) = rest := by
    rw [← List.drop_drop, heq, List.drop_left]
  have hsize := hspelled.size_eq
  have hlength := hspelled.length_eq
  refine ⟨hposition, hspelled.wordAt?_eq heq, hsize.trans hlength, ?_, ?_⟩
  · have hdrop := congrArg List.length heq
    simp only [List.length_drop, List.length_append, ← hsize] at hdrop
    have htwo := Form.two_le_encodedSize i.opcode
    omega
  · rw [hcursor, hsize]
    exact congrArg (Cursor.mk _) hrest.symm

/-- With a whole opcode word at the cursor, decoding succeeds exactly when the
    bytes that the opcode asks for are there. -/
theorem exists_instruction_after_iff {opcode : UInt16} (haddress : position ≤ 65535)
    (hopcode : image.wordAt? position = some opcode) :
    (∃ i, (instruction (.after image position)).result = .ok i) ↔
      position + Form.encodedSize opcode ≤ image.length := by
  constructor
  · rintro ⟨i, hresult⟩
    obtain ⟨-, hword, hsize, hinside, -⟩ := instruction_after_ok haddress hresult
    rw [hopcode] at hword
    rw [Option.some.inj hword, ← hsize]
    exact hinside
  · intro hinside
    rcases instruction_cases (c := .after image position) (Nat.lt_succ_of_le haddress) with
      ⟨i, _, _, _, _, _, hresult, _⟩ | ⟨hshort, _⟩
    · exact ⟨i, hresult⟩
    · obtain ⟨low, high, rest, hdrop, rfl⟩ := Image.wordAt?_eq_some_iff.mp hopcode
      have hlt := hshort low high rest hdrop
      simp only [Cursor.after, List.length_drop] at hlt
      omega

/-- Every failure at an address is found at the end of the image. -/
theorem instruction_after_error {e : DecodeError} (hinside : position ≤ image.length)
    (haddress : position ≤ 65535)
    (h : (instruction (.after image position)).result = .error e) :
    e = .outOfData image.length image.length ∧
      (instruction (.after image position)).cursor = .after image image.length := by
  obtain ⟨hresult, hcursor⟩ := starves_of_instruction_error (Nat.lt_succ_of_le haddress) h
  rw [Cursor.length_after hinside] at hresult hcursor
  rw [hresult] at h
  cases h
  exact ⟨rfl, by rw [hcursor, Cursor.after, List.drop_length]⟩

end Decoder

/-- The lengths of an instruction agree. With a whole opcode word at the cursor,
    decoding succeeds exactly when the probed length fits into the image. It moves the
    cursor by that length, which is also the size of the decoded instruction, so no
    operand byte has a part in it. A failure is always found at the end of the image.
    The probe itself succeeds for every opcode, whatever bytes fill it, and its length
    lies between the size of an opcode word and that of the longest instruction. -/
theorem instruction_lengths_agree (image : Image) (position : Nat)
    (hinside : position ≤ image.length) (haddress : position ≤ 65535) :
    (∀ opcode, image.wordAt? position = some opcode →
      ((∃ i, (Decoder.instruction (.after image position)).result = .ok i) ↔
        position + (instructionLength opcode).value ≤ image.length)) ∧
    (∀ i, (Decoder.instruction (.after image position)).result = .ok i →
      image.wordAt? position = some i.opcode ∧
      (Decoder.instruction (.after image position)).cursor =
        .after image (position + (instructionLength i.opcode).value) ∧
      i.size = (instructionLength i.opcode).value) ∧
    (image.length < position + 2 →
      ∃ e, (Decoder.instruction (.after image position)).result = .error e) ∧
    (∀ e, (Decoder.instruction (.after image position)).result = .error e →
      e = .outOfData image.length image.length ∧
      (Decoder.instruction (.after image position)).cursor = .after image image.length) ∧
    (∀ opcode,
      (∀ fill, ∃ i, (Decoder.instruction (.start (.probe opcode fill))).result = .ok i ∧
        i.size = (instructionLength opcode).value) ∧
      2 ≤ (instructionLength opcode).value ∧ (instructionLength opcode).value ≤ 16) := by
  simp only [instructionLength_value]
  refine ⟨?_, ?_, ?_, ?_, ?_⟩
  · intro opcode hopcode
    exact Decoder.exists_instruction_after_iff haddress hopcode
  · intro i h
    obtain ⟨-, hword, hsize, -, hcursor⟩ := Decoder.instruction_after_ok haddress h
    exact ⟨hword, by rw [hcursor, hsize], hsize⟩
  · intro hshort
    cases hresult : (Decoder.instruction (.after image position)).result with
    | error e => exact ⟨e, rfl⟩
    | ok i =>
      obtain ⟨-, -, hsize, hfits, -⟩ := Decoder.instruction_after_ok haddress hresult
      have htwo := Form.two_le_encodedSize i.opcode
      omega
  · intro e h
    exact Decoder.instruction_after_error hinside haddress h
  · intro opcode
    exact ⟨probe_gives opcode, Form.two_le_encodedSize opcode, Form.encodedSize_le_maxSize opcode⟩

/-- The last byte of an instruction behind another one is missing, so decoding fails. -/
theorem instruction_lengths_agree_free :
    let image : Image := [0x00, 0x00, 0xF3, 0xFF, 0x01, 0x05, 0x00, 0x80, 0x00, 0x07, 0x00, 0x10]
    2 ≤ image.length ∧ 2 ≤ 65535 ∧ image.wordAt? 2 = some 0xFFF3 ∧
      (instructionLength 0xFFF3).value = 11 ∧
      ¬ ∃ i, (Decoder.instruction (.after image 2)).result = .ok i := by
  intro image
  have hopcode : image.wordAt? 2 = some 0xFFF3 := by rfl
  have hlength : (instructionLength 0xFFF3).value = 11 := by rfl
  obtain ⟨hfits, -⟩ := instruction_lengths_agree image 2 (by decide) (by decide)
  refine ⟨by decide, by decide, hopcode, hlength, ?_⟩
  rw [hfits 0xFFF3 hopcode, hlength]
  decide

end Disassembly
