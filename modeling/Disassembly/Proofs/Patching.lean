import Disassembly.Proofs.Losslessness

/-!
# Patched operands

Every byte string of the right length spells an operand of a given kind, and the
length of a kind is fixed. So the bytes of one operand can be replaced by any others:
its instruction keeps its length, and no other instruction moves or changes
(`operand_patch_local`).

The bytes of an operand are found in two steps, each a frame: an operand among the
bytes of its instruction (`Instruction.SpelledBy.exists_field`) and an instruction among
the bytes of a listing (`Listing.Fills.exists_window`). A frame says where the bytes
stand and that others which spell something of the same length can stand there.
-/

namespace Disassembly

/-- The image with other bytes from an offset on. -/
def Image.overwrite (image : Image) (offset : Nat) (bytes : Image) : Image :=
  image.take offset ++ (bytes ++ image.drop (offset + bytes.length))

theorem Image.overwrite_append {x y y' z : Image} (hlength : y'.length = y.length) :
    Image.overwrite (x ++ (y ++ z)) x.length y' = x ++ (y' ++ z) := by
  rw [overwrite, List.take_left, hlength, ← List.drop_drop, List.drop_left, List.drop_left]

/-- The offset in the image at which operand `k` of an instruction begins. -/
def Instruction.operandOffset (i : Instruction) (k : Nat) : Nat :=
  i.address.toNat + opcodeSize + ((i.operands.take k).map Operand.size).sum

/-! ### Frames -/

theorem exists_spells {kind : OperandKind} {bytes : Image} (hlength : bytes.length = kind.width) :
    ∃ operand, Spells kind bytes operand := by
  obtain ⟨operand, hspells, -⟩ := (Decoder.reads_field kind).whole 0 bytes [] hlength
  exact ⟨operand, hspells⟩

theorem SpellsAll.exists_field {kinds : List OperandKind} {bytes : Image}
    {operands : List Operand} {k : Nat} {operand : Operand} (h : SpellsAll kinds bytes operands)
    (hk : operands[k]? = some operand) :
    ∃ (kind : OperandKind) (x y z : Image), bytes = x ++ (y ++ z) ∧
      x.length = ((operands.take k).map Operand.size).sum ∧ Spells kind y operand ∧
      ∀ y' other, Spells kind y' other →
        SpellsAll kinds (x ++ (y' ++ z)) (operands.set k other) := by
  induction h generalizing k with
  | nil => cases hk
  | @cons kind kinds first rest operand' operands hfirst hothers ih =>
    cases k with
    | zero =>
      obtain rfl : operand' = operand := Option.some.inj hk
      refine ⟨kind, [], first, rest, rfl, rfl, hfirst, ?_⟩
      intro y' other hother
      rw [List.nil_append]
      exact .cons hother hothers
    | succ k =>
      obtain ⟨kind', x, y, z, rfl, hlength, hspells, hframe⟩ := ih hk
      refine ⟨kind', first ++ x, y, z, (List.append_assoc ..).symm, ?_, hspells, ?_⟩
      · rw [List.length_append, hlength, hfirst.length_eq, ← hfirst.size_eq]
        simp
      · intro y' other hother
        rw [List.append_assoc]
        exact .cons hfirst (hframe y' other hother)

theorem Instruction.SpelledBy.exists_field {i : Instruction} {bytes : Image} {k : Nat}
    {operand : Operand} (h : i.SpelledBy bytes) (hk : i.operands[k]? = some operand) :
    ∃ (kind : OperandKind) (x y z : Image), bytes = x ++ (y ++ z) ∧
      i.address.toNat + x.length = i.operandOffset k ∧ Spells kind y operand ∧
      ∀ y' other, Spells kind y' other →
        Instruction.SpelledBy { i with operands := i.operands.set k other } (x ++ (y' ++ z)) := by
  cases h with
  | @mk low high address opcode fields operands hopcode hfields =>
    obtain ⟨kind, x, y, z, rfl, hlength, hspells, hframe⟩ := hfields.exists_field hk
    refine ⟨kind, low :: high :: x, y, z, rfl, ?_, hspells, ?_⟩
    · rw [operandOffset, ← hlength, opcodeSize, List.length_cons, List.length_cons]
      omega
    · intro y' other hother
      exact .mk hopcode (hframe y' other hother)

theorem Listing.Fills.exists_window {listing : Listing} {position : Nat} {bytes : Image}
    {m : Nat} {i : Instruction} (h : listing.Fills position bytes) (hm : listing[m]? = some i) :
    ∃ x y z : Image, bytes = x ++ (y ++ z) ∧ position + x.length = i.address.toNat ∧
      i.SpelledBy y ∧
      ∀ (y' : Image) (j : Instruction), j.SpelledBy y' → j.address = i.address →
        y'.length = y.length → Fills (listing.set m j) position (x ++ (y' ++ z)) := by
  induction h generalizing m with
  | nil => cases hm
  | @cons i' listing first rest hspelled hrest ih =>
    cases m with
    | zero =>
      obtain rfl : i' = i := Option.some.inj hm
      refine ⟨[], first, rest, rfl, rfl, hspelled, ?_⟩
      intro y' j hj haddress hlength
      rw [← haddress, ← hlength] at hrest
      rw [← haddress, List.nil_append]
      exact .cons hj hrest
    | succ m =>
      obtain ⟨x, y, z, rfl, hposition, hi, hframe⟩ := ih hm
      refine ⟨first ++ x, y, z, (List.append_assoc ..).symm, ?_, hi, ?_⟩
      · rw [List.length_append, ← Nat.add_assoc, hposition]
      · intro y' j hj haddress hlength
        rw [List.append_assoc]
        exact .cons hspelled (hframe y' j hj haddress hlength)

/-- The bytes of an operand in those of a listing. -/
theorem Listing.Fills.exists_operand {listing : Listing} {position : Nat} {bytes : Image}
    {m k : Nat} {i : Instruction} {operand : Operand} (h : listing.Fills position bytes)
    (hi : listing[m]? = some i) (hk : i.operands[k]? = some operand) :
    ∃ (kind : OperandKind) (x y z : Image), bytes = x ++ (y ++ z) ∧
      position + x.length = i.operandOffset k ∧ Spells kind y operand ∧
      ∀ y' other, Spells kind y' other →
        Fills (listing.set m { i with operands := i.operands.set k other }) position
          (x ++ (y' ++ z)) := by
  obtain ⟨before, window, behind, rfl, hposition, hspelled, hwindow⟩ := h.exists_window hi
  obtain ⟨kind, x, y, z, rfl, hoffset, hspells, hfield⟩ := hspelled.exists_field hk
  refine ⟨kind, before ++ x, y, z ++ behind, by simp only [List.append_assoc], ?_, hspells, ?_⟩
  · rw [List.length_append, ← Nat.add_assoc, hposition, hoffset]
  · intro y' other hother
    have hlength : (x ++ (y' ++ z)).length = (x ++ (y ++ z)).length := by
      simp only [List.length_append, hother.length_eq, hspells.length_eq]
    have hfills := hwindow _ _ (hfield y' other hother) rfl hlength
    simpa only [List.append_assoc] using hfills

/-! ### Patches -/

/-- Other bytes in the place of an operand change this operand only. -/
theorem disassemble_overwrite {image patch : Image} {listing : Listing} {m k : Nat}
    {i : Instruction} {operand : Operand} (himage : (disassemble image).value = .ok listing)
    (hi : listing[m]? = some i) (hoperand : i.operands[k]? = some operand)
    (hpatch : patch.length = operand.size) :
    i.operandOffset k + operand.size ≤ image.length ∧
    ∃ other : Operand, other.kind = operand.kind ∧
      (disassemble (image.overwrite (i.operandOffset k) patch)).value =
        .ok (listing.set m { i with operands := i.operands.set k other }) := by
  obtain ⟨hsize, hfills⟩ := disassemble_eq_ok_iff.mp himage
  obtain ⟨kind, x, y, z, rfl, hoffset, hspells, hframe⟩ := hfills.exists_operand hi hoperand
  rw [Nat.zero_add] at hoffset
  have hwidth : operand.size = y.length := by
    rw [hspells.size_eq, hspells.length_eq]
  rw [hwidth] at hpatch ⊢
  obtain ⟨other, hother⟩ := exists_spells (hpatch.trans hspells.length_eq)
  refine ⟨?_, other, ?_, ?_⟩
  · rw [← hoffset, List.length_append, List.length_append]
    omega
  · rw [hother.wellFormed.2, hspells.wellFormed.2]
  · rw [← hoffset, Image.overwrite_append hpatch]
    apply disassemble_of_fills _ (hframe patch other hother)
    simpa [hpatch] using hsize

theorem size_eq_encodedSize {image : Image} {listing : Listing} {i : Instruction}
    (himage : (disassemble image).value = .ok listing) (hi : i ∈ listing) :
    i.size = Form.encodedSize i.opcode := by
  obtain ⟨-, hfills⟩ := disassemble_eq_ok_iff.mp himage
  obtain ⟨bytes, rest, -, hspelled⟩ := hfills.exists_drop_of_mem List.drop_zero hi
  exact hspelled.size_eq.trans hspelled.length_eq

/-- Whatever bytes take the place of an operand of a listed instruction, the image still
    has a listing. It has as many instructions, and all others are the same. The patched
    instruction keeps its address, opcode, mnemonic, size and number of operands, all
    other operands keep their values, and the patched one keeps its kind. -/
theorem operand_patch_local (image patch : Image) (listing : Listing) (m k : Nat)
    (i : Instruction) (operand : Operand) (himage : (disassemble image).value = .ok listing)
    (hi : listing[m]? = some i) (hoperand : i.operands[k]? = some operand)
    (hpatch : patch.length = operand.size) :
    i.operandOffset k + operand.size ≤ image.length ∧
    ∃ other, (disassemble (image.overwrite (i.operandOffset k) patch)).value = .ok other ∧
      other.length = listing.length ∧
      (∀ n, n ≠ m → other[n]? = listing[n]?) ∧
      ∃ j, other[m]? = some j ∧ j.address = i.address ∧ j.opcode = i.opcode ∧
        j.mnemonic = i.mnemonic ∧ j.operands.length = i.operands.length ∧ j.size = i.size ∧
        (∀ n, n ≠ k → j.operands[n]? = i.operands[n]?) ∧
        ∃ operand', j.operands[k]? = some operand' ∧ operand'.kind = operand.kind := by
  obtain ⟨hinside, operand', hkind, hvalue⟩ := disassemble_overwrite himage hi hoperand hpatch
  obtain ⟨hm, -⟩ := List.getElem?_eq_some_iff.mp hi
  obtain ⟨hk, -⟩ := List.getElem?_eq_some_iff.mp hoperand
  refine ⟨hinside, _, hvalue, List.length_set, ?_, _, List.getElem?_set_self hm, rfl, rfl, rfl,
    List.length_set, ?_, ?_, operand', List.getElem?_set_self hk, hkind⟩
  · intro n hn
    exact List.getElem?_set_ne hn.symm
  · -- The opcode is the same, and it decides the size.
    rw [size_eq_encodedSize himage (List.mem_of_getElem? hi),
      size_eq_encodedSize hvalue (List.mem_set hm _)]
  · intro n hn
    exact List.getElem?_set_ne hn.symm

/-- The first of two offset expressions is overwritten with unknown tags and another
    operator, and the return behind them is still found. -/
theorem operand_patch_local_mov :
    let image : Image := [0x26, 0x11, 0x00, 0x34, 0x12, 0x00, 0x01, 0x78, 0x56,
      0x02, 0x01, 0x00, 0x01, 0x00, 0x02, 0x00, 0x01, 0x00]
    let patch : Image := [0x05, 0xFF, 0xFF, 0x80, 0x09, 0x00, 0x00]
    let first : Operand := .offset ⟨.literal 0x1234, .sub, .var 0x5678⟩
    let second : Operand := .offset ⟨.address 1, .add, .literal 2⟩
    let i : Instruction := ⟨0, 0x1126, some "mov", [first, second]⟩
    let listing : Listing := [i, ⟨16, 0x0001, some "ret", []⟩]
    (disassemble image).value = .ok listing ∧ listing[0]? = some i ∧
      i.operands[0]? = some first ∧ patch.length = first.size ∧
      ∃ other, (disassemble (image.overwrite 2 patch)).value = .ok other ∧
        other[1]? = listing[1]? := by
  intro image patch first second i listing
  have himage : (disassemble image).value = .ok listing := by
    simp only [image, listing, i, first, second]
    with_unfolding_all rfl
  obtain ⟨-, other, hvalue, -, hothers, -⟩ :=
    operand_patch_local image patch listing 0 0 i first himage rfl rfl rfl
  exact ⟨himage, rfl, rfl, rfl, other, hvalue, hothers 1 (by decide)⟩

end Disassembly
