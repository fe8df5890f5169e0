import Disassembly.Proofs.Reading

/-!
# The opcode table

The instruction set written out: one row for each known opcode, with its mnemonic
and the kinds of its operands. The families of `Family.all` hold the same rows
(`flatMap_rows_all`), and looking an opcode up in them is looking it up in the
table (`lookup_opcodeTable`).

The decoder follows the table: an instruction that it gives has the mnemonic of its
row, and its operands are the ones that the bytes behind the opcode word spell when
they are read by the kinds of the row (`instruction_follows_opcodeTable`).
-/

namespace Disassembly

open OperandKind in
/-- Every known opcode with its form. All other opcodes are unknown. -/
def opcodeTable : List (UInt16 × Form) :=
  [ (0x0000, ⟨"nop", []⟩), (0x0001, ⟨"ret", []⟩), (0x0002, ⟨"halt", []⟩),
    (0x0500, ⟨"vnew", [var, dataType]⟩),
    (0x0900, ⟨"alloc", [var, literal]⟩),
    (0x0A00, ⟨"inc", []⟩), (0x0A01, ⟨"dec", []⟩), (0x0A02, ⟨"add", []⟩), (0x0A03, ⟨"sub", []⟩),
    (0x0A04, ⟨"div", []⟩), (0x0A05, ⟨"mul", []⟩), (0x0A06, ⟨"mod", []⟩),
    (0x0AA0, ⟨"and", []⟩), (0x0AA1, ⟨"or", []⟩), (0x0AA2, ⟨"xor", []⟩), (0x0AA3, ⟨"not", []⟩),
    (0x0AB0, ⟨"lsr", []⟩), (0x0AB1, ⟨"rsr", []⟩),
    (0x0AC0, ⟨"cmp", []⟩), (0x0AC1, ⟨"ncmp", []⟩),
    (0x0AD0, ⟨"equ", []⟩), (0x0AD1, ⟨"neq", []⟩), (0x0AD2, ⟨"lwr", []⟩),
    (0x0AD3, ⟨"lwr_equ", []⟩), (0x0AD4, ⟨"grt", []⟩), (0x0AD5, ⟨"grt_equ", []⟩),
    (0x1000, ⟨"str", [var, literal]⟩), (0x1001, ⟨"str", [var, literal]⟩),
    (0x1002, ⟨"str", [var, literal]⟩), (0x1003, ⟨"str", [var, var]⟩),
    (0x1004, ⟨"str", [var, address]⟩), (0x1005, ⟨"str", [var, popped]⟩),
    (0x1100, ⟨"mov", [var, literal]⟩), (0x1101, ⟨"mov", [var, literal]⟩),
    (0x1102, ⟨"mov", [var, literal]⟩), (0x1103, ⟨"mov", [var, var]⟩),
    (0x1104, ⟨"mov", [var, address]⟩), (0x1105, ⟨"mov", [var, popped]⟩),
    (0x1106, ⟨"mov", [var, offset]⟩),
    (0x1110, ⟨"mov", [location, literal]⟩), (0x1111, ⟨"mov", [location, literal]⟩),
    (0x1112, ⟨"mov", [location, literal]⟩), (0x1113, ⟨"mov", [location, var]⟩),
    (0x1114, ⟨"mov", [location, address]⟩), (0x1115, ⟨"mov", [location, popped]⟩),
    (0x1116, ⟨"mov", [location, offset]⟩),
    (0x1120, ⟨"mov", [offset, literal]⟩), (0x1121, ⟨"mov", [offset, literal]⟩),
    (0x1122, ⟨"mov", [offset, literal]⟩), (0x1123, ⟨"mov", [location, var]⟩),
    (0x1124, ⟨"mov", [location, address]⟩), (0x1125, ⟨"mov", [offset, popped]⟩),
    (0x1126, ⟨"mov", [offset, offset]⟩),
    (0x1200, ⟨"ptr", [var, literal]⟩), (0x1201, ⟨"ptr", [var, var]⟩),
    (0x1202, ⟨"ptr", [var, deref]⟩), (0x1203, ⟨"ptr", [var, popped]⟩),
    (0x1204, ⟨"ptr", [var, offset]⟩),
    (0x1500, ⟨"goto", [location]⟩),
    (0x1510, ⟨"call", [location]⟩),
    (0x2000, ⟨"push", [literal]⟩), (0x2001, ⟨"push", [literal]⟩), (0x2002, ⟨"push", [literal]⟩),
    (0x2003, ⟨"push", [var]⟩), (0x2004, ⟨"push", [address]⟩),
    (0x2100, ⟨"pop", []⟩),
    (0xFFF0, ⟨"drop", [var]⟩), (0xFFF1, ⟨"free", [var]⟩), (0xFFF2, ⟨"free", [var, literal]⟩),
    (0xFFF3, ⟨"free", [offset, literal]⟩) ]

/-! ### Families and rows -/

def Family.rows : UInt16 → List Form → List (UInt16 × Form)
  | _, [] => []
  | first, form :: forms => (first, form) :: rows (first + 1) forms

theorem flatMap_rows_all :
    Family.all.flatMap (fun family => Family.rows family.first family.forms) = opcodeTable :=
  rfl

/-- Looking an opcode up in a family is looking it up in the rows of the family. The
    opcodes of the rows must not wrap around. -/
theorem Family.form?_eq_lookup (first opcode : UInt16) (forms : List Form)
    (hfits : first.toNat + forms.length ≤ 65536) :
    Family.form? ⟨first, forms⟩ opcode = (Family.rows first forms).lookup opcode := by
  induction forms generalizing first with
  | nil => simp [Family.form?, Family.rows]
  | cons form forms ih =>
    have hnext : (first + 1).toNat = if first.toNat = 65535 then 0 else first.toNat + 1 := by
      have := first.toNat_lt
      simp only [UInt16.toNat_add, UInt16.reduceToNat]
      split <;> omega
    rw [List.length_cons] at hfits
    rw [Family.rows, List.lookup_cons, ← ih (first + 1) (by split at hnext <;> omega)]
    by_cases hfirst : opcode = first
    · simp [Family.form?, hfirst]
    · have hne : opcode.toNat ≠ first.toNat := fun h => hfirst (UInt16.toNat_inj.mp h)
      have hlt := opcode.toNat_lt
      simp only [Family.form?, UInt16.le_iff_toNat_le, beq_eq_false_iff_ne.mpr hfirst]
      split at hnext
      · -- The last word of all has no successor, so the family ends here.
        have hforms : forms = [] := List.eq_nil_of_length_eq_zero (by omega)
        subst hforms
        rw [if_neg (by omega)]
        simp
      · by_cases hle : first.toNat ≤ opcode.toNat
        · rw [if_pos hle, if_pos (by omega), hnext]
          rw [show opcode.toNat - first.toNat = opcode.toNat - (first.toNat + 1) + 1 by omega]
          exact List.getElem?_cons_succ
        · rw [if_neg hle, if_neg (by omega)]

theorem lookup_opcodeTable (opcode : UInt16) :
    opcodeTable.lookup opcode = Form.ofOpcode? opcode := by
  have hfits : ∀ family ∈ Family.all, family.first.toNat + family.forms.length ≤ 65536 := by decide
  rw [← flatMap_rows_all, Form.ofOpcode?]
  generalize Family.all = families at hfits ⊢
  induction families with
  | nil => rfl
  | cons family families ih =>
    rw [List.flatMap_cons, List.lookup_append, List.findSome?_cons,
      ih fun family hfamily => hfits family (List.mem_cons_of_mem _ hfamily),
      ← Family.form?_eq_lookup family.first opcode family.forms (hfits family List.mem_cons_self)]
    cases Family.form? family opcode <;> rfl

theorem lookup_opcodeTable_eq_none_iff (opcode : UInt16) :
    opcodeTable.lookup opcode = none ↔ ∀ row ∈ opcodeTable, row.1 ≠ opcode := by
  simp only [List.lookup_eq_none_iff, bne_iff_ne, ne_comm]

theorem mem_opcodeTable_of_lookup {opcode : UInt16} {form : Form}
    (h : opcodeTable.lookup opcode = some form) : (opcode, form) ∈ opcodeTable := by
  obtain ⟨before, others, htable, -⟩ := List.lookup_eq_some_iff.mp h
  rw [htable]
  exact List.mem_append_right before List.mem_cons_self

/-! ### The decoder -/

/-- The decoder follows the opcode table. A decoded instruction stands at the position
    of the cursor, its opcode is the word there, low byte first, and its mnemonic is
    the one in the row of that opcode, or none if there is no such row. Its operands
    are the only ones that the bytes right behind the opcode word spell when they are
    read from left to right, without gaps, by the kinds in that row. -/
theorem instruction_follows_opcodeTable (image : Image) (position : Nat)
    (haddress : position ≤ 65535) (i : Instruction)
    (h : (Decoder.instruction (.after image position)).result = .ok i) :
    i.address.toNat = position ∧
    (∃ low high, image[position]? = some low ∧ image[position + 1]? = some high ∧
      LittleEndian low high i.opcode) ∧
    i.mnemonic = (opcodeTable.lookup i.opcode).map Form.mnemonic ∧
    (i.mnemonic = none ↔ ∀ row ∈ opcodeTable, row.1 ≠ i.opcode) ∧
    ∃ fields rest, image.drop (position + 2) = fields ++ rest ∧
      ∀ operands, SpellsAll ((opcodeTable.lookup i.opcode).elim [] Form.kinds) fields operands ↔
        operands = i.operands := by
  obtain ⟨bytes, rest, heq, hposition, hspelled, -⟩ :=
    Decoder.spelledBy_of_instruction_ok (Nat.lt_succ_of_le haddress) h
  change image.drop position = bytes ++ rest at heq
  cases hspelled with
  | @mk low high address opcode fields operands hopcode hfields =>
    have hbyte (k : Nat) : image[position + k]? = (low :: high :: fields ++ rest)[k]? := by
      rw [← heq, List.getElem?_drop]
    rw [← lookup_opcodeTable_eq_none_iff, lookup_opcodeTable]
    refine ⟨hposition, ⟨low, high, hbyte 0, hbyte 1, hopcode⟩, rfl, Option.map_eq_none_iff,
      fields, rest, ?_, ?_⟩
    · rw [← List.drop_drop, heq]
      rfl
    · intro others
      constructor
      · intro hothers
        exact hothers.unique hfields
      · rintro rfl
        exact hfields

/-- A move between two offset expressions, behind one other instruction. Both sides
    of the first expression are unusual: an unknown tag and an operator byte that is
    neither zero nor one. -/
theorem instruction_follows_opcodeTable_mov :
    let image : Image := [0x00, 0x00, 0x26, 0x11, 0x05, 0x10, 0x00, 0xFF, 0x02, 0x20, 0x00,
      0x00, 0x34, 0x12, 0x00, 0x01, 0x78, 0x56]
    let i : Instruction := ⟨2, 0x1126, some "mov",
      [.offset ⟨.unknown 0x05 0x0010, .add, .address 0x0020⟩,
        .offset ⟨.literal 0x1234, .sub, .var 0x5678⟩]⟩
    2 ≤ 65535 ∧ (Decoder.instruction (.after image 2)).result = .ok i ∧
      i.mnemonic = (opcodeTable.lookup i.opcode).map Form.mnemonic ∧
      ∃ fields rest, image.drop 4 = fields ++ rest ∧
        ∀ operands, SpellsAll ((opcodeTable.lookup i.opcode).elim [] Form.kinds) fields operands ↔
          operands = i.operands := by
  intro image i
  have hresult : (Decoder.instruction (.after image 2)).result = .ok i := by
    simp only [image, i]
    rfl
  obtain ⟨-, -, hmnemonic, -, hoperands⟩ :=
    instruction_follows_opcodeTable image 2 (by decide) i hresult
  exact ⟨by decide, hresult, hmnemonic, hoperands⟩

end Disassembly
