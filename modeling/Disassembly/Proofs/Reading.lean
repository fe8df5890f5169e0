import Disassembly.Image.Decoder.Instruction
import Disassembly.Proofs.Encoding

/-!
# Decoders read what the bytes spell

A decoder of fixed width either finds its bytes, gives the value that they spell
and stands right behind them, or it runs out of bytes: then it fails at the end of
the image and stands there. `Decoder.Reads` states both at once, and in sequence
the widths add up (`Decoder.Reads.bind`).

An instruction has no fixed width. `Decoder.instruction_cases` is the same
alternative for it: the bytes behind the cursor begin with those of an instruction
and that instruction is given, or they do not and the decoder runs out of bytes.
-/

namespace Disassembly

/-- The cursor of an image with so many bytes in front of it. -/
def Cursor.after (image : Image) (position : Nat) : Cursor := ⟨position, image.drop position⟩

@[simp] theorem Cursor.length_after {image : Image} {position : Nat}
    (h : position ≤ image.length) : (Cursor.after image position).length = image.length := by
  simp only [after, length, List.length_drop]
  omega

namespace Decoder

variable {α β : Type}

/-! ### Outcomes -/

/-- The decoder gives a value and moves to another cursor. -/
def Gives (d : Decoder α) (c : Cursor) (a : α) (c' : Cursor) : Prop :=
  (d c).result = .ok a ∧ (d c).cursor = c'

/-- The decoder runs out of bytes. It fails at the end of the image and the cursor
    stands there. -/
def Starves (d : Decoder α) (c : Cursor) : Prop :=
  (d c).result = .error (.outOfData c.length c.length) ∧ (d c).cursor = ⟨c.length, []⟩

theorem Gives.bind {d : Decoder α} {f : α → Decoder β} {c c' c'' : Cursor} {a : α} {b : β}
    (hd : d.Gives c a c') (hf : (f a).Gives c' b c'') : (d >>= f).Gives c b c'' := by
  obtain ⟨hresult, rfl⟩ := hd
  change (Decoder.bind d f c).result = .ok b ∧ (Decoder.bind d f c).cursor = c''
  simp only [Decoder.bind, hresult]
  exact hf

theorem Starves.bind {d : Decoder α} {f : α → Decoder β} {c : Cursor} (hd : d.Starves c) :
    (d >>= f).Starves c := by
  obtain ⟨hresult, hcursor⟩ := hd
  change (Decoder.bind d f c).result = _ ∧ (Decoder.bind d f c).cursor = _
  simp only [Decoder.bind, hresult]
  exact ⟨trivial, hcursor⟩

theorem Gives.bind_starves {d : Decoder α} {f : α → Decoder β} {c c' : Cursor} {a : α}
    (hd : d.Gives c a c') (hf : (f a).Starves c') (hlength : c'.length = c.length) :
    (d >>= f).Starves c := by
  obtain ⟨hresult, rfl⟩ := hd
  change (Decoder.bind d f c).result = _ ∧ (Decoder.bind d f c).cursor = _
  simp only [Decoder.bind, hresult, ← hlength]
  exact hf

/-! ### Decoders of fixed width -/

/-- The decoder takes `width` bytes and gives a value that they spell. When there
    are fewer it runs out of bytes. -/
structure Reads (width : Nat) (spells : Image → α → Prop) (d : Decoder α) : Prop where
  whole : ∀ (position : Nat) (bytes rest : Image), bytes.length = width →
    ∃ a, spells bytes a ∧ d.Gives ⟨position, bytes ++ rest⟩ a ⟨position + width, rest⟩
  short : ∀ (position : Nat) (rest : Image), rest.length < width → d.Starves ⟨position, rest⟩

/-- The bytes of a value that is read in two steps. -/
def Joined (first : Image → α → Prop) (second : α → Image → β → Prop) (bytes : Image) (b : β) :
    Prop :=
  ∃ x a y, bytes = x ++ y ∧ first x a ∧ second a y b

theorem Reads.mono {width : Nat} {spells spells' : Image → α → Prop} {d : Decoder α}
    (hd : Reads width spells d) (h : ∀ bytes a, spells bytes a → spells' bytes a) :
    Reads width spells' d where
  whole position bytes rest hlength := by
    obtain ⟨a, hspells, hgives⟩ := hd.whole position bytes rest hlength
    exact ⟨a, h bytes a hspells, hgives⟩
  short := hd.short

/-- In sequence, the widths add up. -/
theorem Reads.bind {m n : Nat} {first : Image → α → Prop} {second : α → Image → β → Prop}
    {d : Decoder α} {f : α → Decoder β} (hd : Reads m first d)
    (hf : ∀ a, Reads n (second a) (f a)) :
    Reads (m + n) (Joined first second) (d >>= f) where
  whole position bytes rest hlength := by
    have hx : (bytes.take m).length = m := by simp; omega
    have hy : (bytes.drop m).length = n := by simp; omega
    obtain ⟨a, hfirst, hgives⟩ := hd.whole position (bytes.take m) (bytes.drop m ++ rest) hx
    obtain ⟨b, hsecond, hgives'⟩ := (hf a).whole (position + m) (bytes.drop m) rest hy
    refine ⟨b, ⟨_, a, _, (List.take_append_drop m bytes).symm, hfirst, hsecond⟩, ?_⟩
    rw [← List.append_assoc, List.take_append_drop] at hgives
    rw [← Nat.add_assoc]
    exact hgives.bind hgives'
  short position rest hlength := by
    by_cases hm : rest.length < m
    · exact (hd.short position rest hm).bind
    · -- The first step finds its bytes, so it is the second that runs out.
      have hx : (rest.take m).length = m := by simp; omega
      obtain ⟨a, _, hgives⟩ := hd.whole position (rest.take m) (rest.drop m) hx
      rw [List.take_append_drop] at hgives
      refine hgives.bind_starves ((hf a).short (position + m) (rest.drop m) ?_) ?_
      · simp
        omega
      · simp [Cursor.length]
        omega

/-- At every cursor one of the two happens. -/
theorem Reads.cases {width : Nat} {spells : Image → α → Prop} {d : Decoder α}
    (hd : Reads width spells d) (c : Cursor) :
    (∃ (a : α) (bytes rest : Image), c.rest = bytes ++ rest ∧ bytes.length = width ∧
      spells bytes a ∧ d.Gives c a ⟨c.position + width, rest⟩) ∨
    (c.rest.length < width ∧ d.Starves c) := by
  by_cases hshort : c.rest.length < width
  · exact Or.inr ⟨hshort, hd.short c.position c.rest hshort⟩
  · have hlength : (c.rest.take width).length = width :=
      List.length_take_of_le (Nat.not_lt.mp hshort)
    obtain ⟨a, hspells, hgives⟩ :=
      hd.whole c.position (c.rest.take width) (c.rest.drop width) hlength
    rw [List.take_append_drop] at hgives
    exact Or.inl ⟨a, _, _, (List.take_append_drop width c.rest).symm, hlength, hspells, hgives⟩

theorem reads_pure (a : α) : Reads 0 (fun bytes b => bytes = [] ∧ b = a) (pure a : Decoder α) where
  whole position bytes rest hlength := by
    rw [List.eq_nil_of_length_eq_zero hlength]
    exact ⟨a, ⟨rfl, rfl⟩, rfl, rfl⟩
  short _ _ hlength := absurd hlength (Nat.not_lt_zero _)

theorem reads_position : Reads 0 (fun bytes _ => bytes = []) position where
  whole position bytes rest hlength := by
    rw [List.eq_nil_of_length_eq_zero hlength]
    exact ⟨position, rfl, rfl, rfl⟩
  short _ _ hlength := absurd hlength (Nat.not_lt_zero _)

theorem reads_notify (notices : List Notice) :
    Reads 0 (fun bytes _ => bytes = []) (notify notices) where
  whole position bytes rest hlength := by
    rw [List.eq_nil_of_length_eq_zero hlength]
    exact ⟨(), rfl, rfl, rfl⟩
  short _ _ hlength := absurd hlength (Nat.not_lt_zero _)

theorem reads_byte : Reads 1 (fun bytes b => bytes = [b]) byte where
  whole position bytes rest hlength := by
    obtain ⟨b, rfl⟩ := List.length_eq_one_iff.mp hlength
    exact ⟨b, rfl, rfl, rfl⟩
  short position rest hlength := by
    rw [List.eq_nil_of_length_eq_zero (Nat.lt_one_iff.mp hlength)]
    exact ⟨rfl, rfl⟩

theorem reads_word :
    Reads 2 (fun bytes w => ∃ low high, bytes = [low, high] ∧ LittleEndian low high w) word := by
  refine (reads_byte.bind fun _ => reads_byte.bind fun _ => reads_pure _).mono ?_
  rintro _ _ ⟨_, low, _, rfl, rfl, _, high, _, rfl, rfl, rfl, rfl⟩
  exact ⟨low, high, rfl, toNat_wordOfBytes low high⟩

/-! ### Operands -/

theorem reads_offsetSide :
    Reads 3 (fun bytes side => ∃ tag low high data,
      bytes = [tag, low, high] ∧ LittleEndian low high data ∧ SideParts tag data side)
      offsetSide := by
  refine (reads_byte.bind fun _ => reads_word.bind fun _ => reads_pure _).mono ?_
  rintro _ _ ⟨_, tag, _, rfl, rfl, _, data, _, rfl, ⟨low, high, rfl, hdata⟩, rfl, rfl⟩
  exact ⟨tag, low, high, data, rfl, hdata, sideParts_iff.mpr rfl⟩

theorem reads_offsetExpr :
    Reads 7 (fun bytes expr => Spells .offset bytes (.offset expr)) offsetExpr := by
  refine (reads_offsetSide.bind fun _ => reads_byte.bind fun _ =>
    reads_offsetSide.bind fun _ => reads_pure _).mono ?_
  rintro _ _ ⟨_, lhs, _, rfl, ⟨ltag, llow, lhigh, ldata, rfl, hldata, hlhs⟩,
    _, op, _, rfl, rfl, _, rhs, _, rfl, ⟨rtag, rlow, rhigh, rdata, rfl, hrdata, hrhs⟩, rfl, rfl⟩
  exact .offset hldata hlhs (operatorByte_iff.mpr rfl) hrdata hrhs

theorem reads_ofWord {kind : OperandKind} {make : UInt16 → Operand}
    (hmake : ∀ low high w, LittleEndian low high w → Spells kind [low, high] (make w)) :
    Reads 2 (Spells kind) (word >>= fun w => pure (make w)) := by
  refine (reads_word.bind fun _ => reads_pure _).mono ?_
  rintro _ _ ⟨_, w, _, rfl, ⟨low, high, rfl, hword⟩, rfl, rfl⟩
  exact hmake low high w hword

theorem reads_field (kind : OperandKind) : Reads kind.width (Spells kind) (field kind) := by
  cases kind with
  | literal => exact reads_ofWord fun _ _ _ => .literal
  | var => exact reads_ofWord fun _ _ _ => .var
  | address => exact reads_ofWord fun _ _ _ => .address
  | location => exact reads_ofWord fun _ _ _ => .location
  | deref => exact reads_ofWord fun _ _ _ => .deref
  | popped =>
    refine (reads_pure _).mono ?_
    rintro _ _ ⟨rfl, rfl⟩
    exact .popped
  | offset =>
    refine (reads_offsetExpr.bind fun _ => reads_pure _).mono ?_
    rintro _ _ ⟨bytes, expr, _, rfl, hexpr, rfl, rfl⟩
    rw [List.append_nil]
    exact hexpr
  | dataType =>
    refine (reads_byte.bind fun _ => reads_pure _).mono ?_
    rintro _ _ ⟨_, byte, _, rfl, rfl, rfl, rfl⟩
    exact .dataType (typeByte_iff.mpr rfl)

/-- Notices do not change what is read. -/
theorem reads_operand (kind : OperandKind) : Reads kind.width (Spells kind) (operand kind) := by
  have h := reads_position.bind fun start => (reads_field kind).bind fun o =>
    (reads_notify (o.notices start)).bind fun _ => reads_pure o
  rw [Nat.zero_add, Nat.add_zero] at h
  refine h.mono ?_
  rintro _ _ ⟨_, _, _, rfl, rfl, bytes, o, _, rfl, hspells, _, _, _, rfl, rfl, rfl, rfl⟩
  rw [List.append_nil, List.append_nil, List.nil_append]
  exact hspells

theorem reads_operands (kinds : List OperandKind) :
    Reads (OperandKind.widths kinds) (SpellsAll kinds) (operands kinds) := by
  induction kinds with
  | nil =>
    refine (reads_pure _).mono ?_
    rintro _ _ ⟨rfl, rfl⟩
    exact .nil
  | cons kind kinds ih =>
    refine ((reads_operand kind).bind fun _ => ih.bind fun _ => reads_pure _).mono ?_
    rintro _ _ ⟨bytes, o, _, rfl, hfirst, rest, os, _, rfl, hothers, rfl, rfl⟩
    rw [List.append_nil]
    exact .cons hfirst hothers

/-! ### Instructions -/

theorem address_gives {c : Cursor} (hposition : c.position < 65536) :
    address.Gives c c.position.toUInt16 c := by
  simp only [Gives, address, if_pos hposition, and_self]

theorem instruction_starves_of_length_lt {c : Cursor} (hposition : c.position < 65536)
    (hlength : c.rest.length < 2) : instruction.Starves c := by
  have hword : word.Starves c := reads_word.short c.position c.rest hlength
  exact (address_gives hposition).bind_starves hword.bind rfl

theorem instruction_starves_of_fields {position : Nat} {low high : UInt8} {rest : Image}
    (hposition : position < 65536)
    (hlength : rest.length < OperandKind.widths (Form.kindsOf (wordOfBytes low high))) :
    instruction.Starves ⟨position, low :: high :: rest⟩ := by
  obtain ⟨w, ⟨_, _, hbytes, hword⟩, hgives⟩ := reads_word.whole position [low, high] rest rfl
  cases hbytes
  rw [littleEndian_iff] at hword
  subst hword
  refine (address_gives hposition).bind_starves (hgives.bind_starves ?_ ?_) rfl
  · exact ((reads_operands _).short _ _ hlength).bind
  · simp only [Cursor.length, List.length_append, List.length_cons, List.length_nil]
    omega

theorem instruction_gives_of_fields {position : Nat} (low high : UInt8) (fields rest : Image)
    (hposition : position < 65536)
    (hlength : fields.length = OperandKind.widths (Form.kindsOf (wordOfBytes low high))) :
    ∃ i : Instruction, i.address.toNat = position ∧ i.SpelledBy (low :: high :: fields) ∧
      instruction.Gives ⟨position, low :: high :: fields ++ rest⟩ i
        ⟨position + (low :: high :: fields).length, rest⟩ := by
  obtain ⟨w, ⟨_, _, hbytes, hword⟩, hgives⟩ :=
    reads_word.whole position [low, high] (fields ++ rest) rfl
  cases hbytes
  have hopcode := littleEndian_iff.mp hword
  rw [← hopcode] at hlength
  obtain ⟨os, hspells, hgives'⟩ := (reads_operands _).whole (position + 2) fields rest hlength
  refine ⟨⟨position.toUInt16, w, (Form.ofOpcode? w).map Form.mnemonic, os⟩, ?_,
    .mk hword hspells, ?_⟩
  · simp only [Nat.toUInt16, UInt16.toNat_ofNat']
    omega
  · have hend : position + (low :: high :: fields).length =
        position + 2 + OperandKind.widths (Form.kindsOf w) := by
      rw [← hlength]
      simp only [List.length_cons]
      omega
    rw [hend]
    exact (address_gives hposition).bind (hgives.bind (hgives'.bind ⟨rfl, rfl⟩))

/-- At an address, either the bytes behind the cursor begin with those of an
    instruction and it is given, or they are fewer than the opcode word in front of
    them asks for and the decoder runs out of bytes. -/
theorem instruction_cases {c : Cursor} (hposition : c.position < 65536) :
    (∃ (i : Instruction) (bytes rest : Image), c.rest = bytes ++ rest ∧
      i.address.toNat = c.position ∧ i.SpelledBy bytes ∧
      instruction.Gives c i ⟨c.position + bytes.length, rest⟩) ∨
    ((∀ low high rest, c.rest = low :: high :: rest →
      c.rest.length < Form.encodedSize (wordOfBytes low high)) ∧ instruction.Starves c) := by
  obtain ⟨position, bytes⟩ := c
  rcases bytes with _ | ⟨low, _ | ⟨high, rest⟩⟩
  · refine Or.inr ⟨?_, instruction_starves_of_length_lt hposition (by simp)⟩
    rintro low high rest ⟨⟩
  · refine Or.inr ⟨?_, instruction_starves_of_length_lt hposition (by simp)⟩
    rintro low high rest ⟨⟩
  · by_cases hlength : rest.length < OperandKind.widths (Form.kindsOf (wordOfBytes low high))
    · refine Or.inr ⟨?_, instruction_starves_of_fields hposition hlength⟩
      rintro _ _ _ ⟨⟩
      simp only [List.length_cons, Form.encodedSize, Instruction.opcodeSize]
      omega
    · let fields := rest.take (OperandKind.widths (Form.kindsOf (wordOfBytes low high)))
      have hfields : rest = fields ++ rest.drop fields.length := by
        simp [fields, Nat.min_eq_left (Nat.not_lt.mp hlength)]
      obtain ⟨i, haddress, hspelled, hgives⟩ := instruction_gives_of_fields low high fields
        (rest.drop fields.length) hposition (List.length_take_of_le (Nat.not_lt.mp hlength))
      have heq : low :: high :: rest = low :: high :: fields ++ rest.drop fields.length := by
        rw [List.cons_append, List.cons_append, ← hfields]
      exact Or.inl ⟨i, _, _, heq, haddress, hspelled, by rw [heq]; exact hgives⟩

/-- Every instruction that the bytes spell is found. -/
theorem instruction_gives_of_spelledBy {i : Instruction} {bytes : Image} (rest : Image)
    (hspelled : i.SpelledBy bytes) :
    instruction.Gives ⟨i.address.toNat, bytes ++ rest⟩ i
      ⟨i.address.toNat + bytes.length, rest⟩ := by
  have hcases := instruction_cases (c := ⟨i.address.toNat, bytes ++ rest⟩) i.address.toNat_lt
  rcases hcases with ⟨j, bytes', rest', heq, haddress, hspelled', hgives⟩ | ⟨hshort, _⟩
  · obtain ⟨rfl, rfl⟩ := hspelled.append_inj hspelled' heq
    obtain rfl := hspelled.unique hspelled' (UInt16.toNat_inj.mp haddress.symm)
    exact hgives
  · have hlength := hspelled.length_eq
    obtain ⟨low, high, fields, rfl, hopcode⟩ := hspelled.exists_opcode
    have hlt := hshort low high (fields ++ rest) rfl
    simp only [List.length_append, hlength, ← hopcode] at hlt
    omega

/-- Every instruction that is found is spelled by the bytes consumed. -/
theorem spelledBy_of_instruction_ok {c : Cursor} {i : Instruction} (hposition : c.position < 65536)
    (h : (instruction c).result = .ok i) :
    ∃ bytes rest : Image, c.rest = bytes ++ rest ∧ i.address.toNat = c.position ∧
      i.SpelledBy bytes ∧ (instruction c).cursor = ⟨c.position + bytes.length, rest⟩ := by
  rcases instruction_cases hposition with
    ⟨j, bytes, rest, heq, haddress, hspelled, hresult, hcursor⟩ | ⟨_, hresult, _⟩
  · rw [hresult] at h
    cases h
    exact ⟨bytes, rest, heq, haddress, hspelled, hcursor⟩
  · rw [hresult] at h
    cases h

/-- The only failure at an address is to run out of bytes. -/
theorem starves_of_instruction_error {c : Cursor} {e : DecodeError} (hposition : c.position < 65536)
    (h : (instruction c).result = .error e) : instruction.Starves c := by
  rcases instruction_cases hposition with ⟨_, _, _, _, _, _, hresult, _⟩ | ⟨_, hstarves⟩
  · rw [hresult] at h
    cases h
  · exact hstarves

end Decoder

end Disassembly
