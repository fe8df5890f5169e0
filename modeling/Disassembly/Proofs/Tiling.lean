import Mathlib.Algebra.GroupWithZero.Nat
import Disassembly.Listing.Basic
import Disassembly.Proofs.InstructionLength

/-!
# Listings fill their image

An image has a listing exactly when instructions fill it from its first byte to its
last. `Listing.Fills` states that the bytes behind an address are those of the
instructions of a listing, one after the other. A run over an image collects the
listing that fills it, and if none does it ends with an error at the end of the image
(`disassemble_eq_ok_iff`, `disassemble_of_not_fills`).

The addresses of the listing are found without decoding any operand: from address
zero on, each one is followed at the length that its opcode word asks for
(`Image.Chain`).
-/

namespace Disassembly

/-! ### Instructions that fill bytes -/

/-- The instructions of the listing follow one another from an address on, and the
    bytes there are theirs, up to the last one. -/
inductive Listing.Fills : Listing → Nat → Image → Prop where
  | nil {position : Nat} : Fills [] position []
  | cons {i : Instruction} {listing : Listing} {bytes rest : Image}
      (hspelled : i.SpelledBy bytes)
      (hrest : Fills listing (i.address.toNat + bytes.length) rest) :
      Fills (i :: listing) i.address.toNat (bytes ++ rest)

namespace Listing.Fills

variable {listing : Listing} {position : Nat} {bytes : Image}

/-- No byte is left out and none is used twice. -/
theorem length_eq (h : listing.Fills position bytes) :
    (listing.map Instruction.size).sum = bytes.length := by
  induction h with
  | nil => rfl
  | cons hspelled _ ih =>
    rw [List.map_cons, List.sum_cons, hspelled.size_eq, ih, List.length_append]

/-- Every instruction takes at least its opcode word and at most the bytes of the
    longest one. -/
theorem length_bounds (h : listing.Fills position bytes) :
    2 * listing.length ≤ bytes.length ∧ bytes.length ≤ 16 * listing.length := by
  induction h with
  | nil => exact ⟨Nat.le_refl _, Nat.le_refl _⟩
  | @cons i listing bytes rest hspelled _ ih =>
    have hleast := Form.two_le_encodedSize i.opcode
    have hmost : Form.encodedSize i.opcode ≤ 16 := Form.encodedSize_le_maxSize i.opcode
    rw [← hspelled.length_eq] at hleast hmost
    simp only [List.length_cons, List.length_append]
    omega

theorem address_first (h : listing.Fills position bytes) {i : Instruction}
    (hi : listing[0]? = some i) : i.address.toNat = position := by
  cases h with
  | nil => cases hi
  | cons =>
    obtain rfl := Option.some.inj hi
    rfl

theorem address_next (h : listing.Fills position bytes) {k : Nat} {i j : Instruction}
    (hi : listing[k]? = some i) (hj : listing[k + 1]? = some j) :
    j.address.toNat = i.address.toNat + i.size := by
  induction h generalizing k with
  | nil => cases hi
  | cons hspelled hrest ih =>
    rw [List.getElem?_cons_succ] at hj
    cases k with
    | zero =>
      obtain rfl := Option.some.inj hi
      rw [hrest.address_first hj, hspelled.size_eq]
    | succ k =>
      rw [List.getElem?_cons_succ] at hi
      exact ih hi hj

theorem exists_drop_of_mem {image : Image} (h : listing.Fills position bytes)
    (hdrop : image.drop position = bytes) {i : Instruction} (hi : i ∈ listing) :
    ∃ bytes rest, image.drop i.address.toNat = bytes ++ rest ∧ i.SpelledBy bytes := by
  induction h with
  | nil => cases hi
  | @cons j listing bytes rest hspelled _ ih =>
    rcases List.mem_cons.mp hi with rfl | hi
    · exact ⟨bytes, rest, hdrop, hspelled⟩
    · exact ih (by rw [← List.drop_drop, hdrop, List.drop_left]) hi

end Listing.Fills

/-! ### Runs -/

namespace Run

theorem collect_value (r : Run) (found : Array Instruction) (notices : Array Notice) :
    (r.collect found notices).value =
      match r.next.item with
      | none => .ok found.toList
      | some (.error e) => .error e
      | some (.ok i) => (r.next.run.collect (found.push i) (notices ++ r.next.notices)).value := by
  rw [collect]
  split <;> simp_all

theorem next_scanning_of_gives {c c' : Cursor} {i : Instruction} (hmore : c.hasMore = true)
    (h : Decoder.instruction.Gives c i c') :
    (scanning c).next.item = some (.ok i) ∧ (scanning c).next.run = scanning c' := by
  obtain ⟨hresult, hcursor⟩ := h
  simp only [next, if_pos hmore, Turn.ofStep, hresult, hcursor, and_self]

theorem next_scanning_of_starves {c : Cursor} (hmore : c.hasMore = true)
    (h : Decoder.instruction.Starves c) :
    (scanning c).next.item = some (.error (.outOfData c.length c.length)) ∧
      (scanning c).next.run = finished c.length := by
  obtain ⟨hresult, hcursor⟩ := h
  simp only [next, if_pos hmore, Turn.ofStep, hresult, hcursor, and_self]

/-- A run collects the instructions that fill the bytes it has not read. -/
theorem collect_of_fills {listing : Listing} {position : Nat} {rest : Image}
    (h : listing.Fills position rest) (found : Array Instruction) (notices : Array Notice) :
    ((scanning ⟨position, rest⟩).collect found notices).value = .ok (found.toList ++ listing) := by
  induction h generalizing found notices with
  | nil =>
    rw [collect_value, List.append_nil]
    rfl
  | @cons i listing bytes rest hspelled _ ih =>
    have hmore : Cursor.hasMore ⟨i.address.toNat, bytes ++ rest⟩ = true := by
      obtain ⟨low, high, fields, rfl, -⟩ := hspelled.exists_opcode
      rfl
    obtain ⟨hitem, hrun⟩ :=
      next_scanning_of_gives hmore (Decoder.instruction_gives_of_spelledBy rest hspelled)
    rw [collect_value, hitem, hrun]
    simp only [ih, Array.toList_push, List.append_assoc, List.singleton_append]

/-- A run over bytes that no listing fills ends with an error at the end of the image. -/
theorem collect_of_not_fills {position : Nat} {rest : Image}
    (haddresses : position + rest.length < 65536)
    (h : ∀ listing, ¬ Listing.Fills listing position rest)
    (found : Array Instruction) (notices : Array Notice) :
    ((scanning ⟨position, rest⟩).collect found notices).value =
      .error (.outOfData (position + rest.length) (position + rest.length)) := by
  -- The induction is on the number of bytes that have not been read.
  induction hlength : rest.length using Nat.strongRecOn
    generalizing position rest found notices with
  | ind n ih =>
    have hmore : Cursor.hasMore ⟨position, rest⟩ = true := by
      rcases rest with _ | ⟨byte, rest⟩
      · exact absurd .nil (h [])
      · rfl
    have hposition : Cursor.position ⟨position, rest⟩ < 65536 :=
      Nat.lt_of_le_of_lt (Nat.le_add_right _ _) haddresses
    rw [collect_value]
    rcases Decoder.instruction_cases hposition with
      ⟨i, bytes, rest', heq, haddress, hspelled, hgives⟩ | ⟨-, hstarves⟩
    · obtain ⟨hitem, hrun⟩ := next_scanning_of_gives hmore hgives
      obtain rfl : rest = bytes ++ rest' := heq
      obtain rfl : i.address.toNat = position := haddress
      have htwo := Form.two_le_encodedSize i.opcode
      rw [← hspelled.length_eq] at htwo
      rw [List.length_append] at hlength haddresses
      -- What fills the rest would fill all bytes, with this instruction in front.
      have hrest : ∀ listing, ¬ Listing.Fills listing (i.address.toNat + bytes.length) rest' :=
        fun listing hfills => h (i :: listing) (.cons hspelled hfills)
      have hvalue := ih rest'.length (by omega) (by omega) hrest (found.push i)
        (notices ++ (scanning ⟨i.address.toNat, bytes ++ rest'⟩).next.notices) rfl
      rw [hitem, hrun, ← hlength, ← Nat.add_assoc]
      exact hvalue
    · obtain ⟨hitem, -⟩ := next_scanning_of_starves hmore hstarves
      rw [hitem, ← hlength]
      rfl

end Run

/-! ### Disassembly -/

theorem disassemble_value (image : Image) :
    (disassemble image).value = ((Run.start image).collect #[] #[]).value := by
  unfold disassemble
  cases h : ((Run.start image).collect #[] #[]).value <;> simp only [h]

theorem disassemble_of_oversize {image : Image} (h : Image.sizeLimit ≤ image.length) :
    (disassemble image).value = .error (.oversize image.length) := by
  rw [disassemble_value, Run.start, if_pos h, Run.collect_value]
  rfl

theorem disassemble_of_fills {image : Image} {listing : Listing}
    (hsize : image.length < Image.sizeLimit) (h : listing.Fills 0 image) :
    (disassemble image).value = .ok listing := by
  rw [disassemble_value, Run.start, if_neg (Nat.not_le.mpr hsize)]
  exact Run.collect_of_fills h #[] #[]

theorem disassemble_of_not_fills {image : Image} (hsize : image.length < Image.sizeLimit)
    (h : ∀ listing, ¬ Listing.Fills listing 0 image) :
    (disassemble image).value = .error (.outOfData image.length image.length) := by
  have haddresses : 0 + image.length < 65536 := by
    unfold Image.sizeLimit at hsize
    omega
  rw [disassemble_value, Run.start, if_neg (Nat.not_le.mpr hsize)]
  have hvalue := Run.collect_of_not_fills haddresses h #[] #[]
  rw [Nat.zero_add] at hvalue
  exact hvalue

theorem disassemble_cases (image : Image) :
    (Image.sizeLimit ≤ image.length ∧
      (disassemble image).value = .error (.oversize image.length)) ∨
    (image.length < Image.sizeLimit ∧
      ∃ listing : Listing, listing.Fills 0 image ∧ (disassemble image).value = .ok listing) ∨
    (image.length < Image.sizeLimit ∧ (∀ listing, ¬ Listing.Fills listing 0 image) ∧
      (disassemble image).value = .error (.outOfData image.length image.length)) := by
  by_cases hsize : image.length < Image.sizeLimit
  · by_cases hfills : ∃ listing, Listing.Fills listing 0 image
    · obtain ⟨listing, hlisting⟩ := hfills
      exact Or.inr (Or.inl ⟨hsize, listing, hlisting, disassemble_of_fills hsize hlisting⟩)
    · have hnone := not_exists.mp hfills
      exact Or.inr (Or.inr ⟨hsize, hnone, disassemble_of_not_fills hsize hnone⟩)
  · have hover := Nat.not_lt.mp hsize
    exact Or.inl ⟨hover, disassemble_of_oversize hover⟩

/-- An image has a listing exactly when it is not too long and the listing fills it. -/
theorem disassemble_eq_ok_iff {image : Image} {listing : Listing} :
    (disassemble image).value = .ok listing ↔
      image.length < Image.sizeLimit ∧ listing.Fills 0 image := by
  constructor
  · intro hvalue
    rcases disassemble_cases image with ⟨_, hcase⟩ | ⟨hsize, other, hother, hcase⟩ | ⟨_, _, hcase⟩
    · rw [hcase] at hvalue
      cases hvalue
    · rw [hcase] at hvalue
      cases hvalue
      exact ⟨hsize, hother⟩
    · rw [hcase] at hvalue
      cases hvalue
  · rintro ⟨hsize, hfills⟩
    exact disassemble_of_fills hsize hfills

theorem disassemble_eq_oversize_iff {image : Image} {length : Nat} :
    (disassemble image).value = .error (.oversize length) ↔
      length = image.length ∧ Image.sizeLimit ≤ image.length := by
  constructor
  · intro hvalue
    rcases disassemble_cases image with ⟨hover, hcase⟩ | ⟨_, _, _, hcase⟩ | ⟨_, _, hcase⟩
    · rw [hcase] at hvalue
      cases hvalue
      exact ⟨rfl, hover⟩
    · rw [hcase] at hvalue
      cases hvalue
    · rw [hcase] at hvalue
      cases hvalue
  · rintro ⟨rfl, hsize⟩
    exact disassemble_of_oversize hsize

/-! ### Chains of addresses -/

/-- The addresses that one meets on the way from a position to the end of the image,
    when each is left by the length that the opcode word there asks for. -/
inductive Image.Chain (image : Image) : Nat → List Nat → Prop where
  | done : Chain image image.length []
  | step {position : Nat} {opcode : UInt16} {addresses : List Nat}
      (hopcode : image.wordAt? position = some opcode)
      (hrest : Chain image (position + (instructionLength opcode).value) addresses) :
      Chain image position (position :: addresses)

theorem Image.Chain.le_length {image : Image} {position : Nat} {addresses : List Nat}
    (h : image.Chain position addresses) : position ≤ image.length := by
  induction h with
  | done => exact Nat.le_refl _
  | step _ _ ih => exact Nat.le_trans (Nat.le_add_right _ _) ih

/-- The addresses of a listing that fills an image form a chain. -/
theorem Listing.Fills.chain {listing : Listing} {image bytes : Image} {position : Nat}
    (h : listing.Fills position bytes) (hdrop : image.drop position = bytes)
    (hinside : position ≤ image.length) :
    image.Chain position (listing.map (·.address.toNat)) := by
  induction h with
  | nil =>
    rw [List.drop_eq_nil_iff] at hdrop
    rw [Nat.le_antisymm hinside hdrop]
    exact .done
  | @cons i listing bytes rest hspelled _ ih =>
    have hend := congrArg List.length hdrop
    rw [List.length_drop, List.length_append] at hend
    have hlength := hspelled.length_eq
    have htwo := Form.two_le_encodedSize i.opcode
    refine .step (hspelled.wordAt?_eq hdrop) ?_
    rw [instructionLength_value, ← hlength]
    exact ih (by rw [← List.drop_drop, hdrop, List.drop_left]) (by omega)

/-- Along a chain instructions fill the image. -/
theorem Image.Chain.exists_fills {image : Image} {position : Nat} {addresses : List Nat}
    (hsize : image.length < 65536) (h : image.Chain position addresses) :
    ∃ listing, Listing.Fills listing position (image.drop position) := by
  induction h with
  | done =>
    rw [List.drop_length]
    exact ⟨[], .nil⟩
  | @step position opcode addresses hopcode hrest ih =>
    rw [instructionLength_value] at hrest ih
    have hfits := hrest.le_length
    have haddress : position ≤ 65535 := by omega
    obtain ⟨i, hresult⟩ := (Decoder.exists_instruction_after_iff haddress hopcode).mpr hfits
    obtain ⟨bytes, rest, heq, hposition, hspelled, -⟩ :=
      Decoder.spelledBy_of_instruction_ok (Nat.lt_succ_of_le haddress) hresult
    change image.drop position = bytes ++ rest at heq
    change i.address.toNat = position at hposition
    have hword := (hspelled.wordAt?_eq heq).symm.trans hopcode
    obtain ⟨listing, hlisting⟩ := ih
    rw [← Option.some.inj hword, ← hspelled.length_eq, ← List.drop_drop, heq, List.drop_left,
      ← hposition] at hlisting
    refine ⟨i :: listing, ?_⟩
    rw [heq, ← hposition]
    exact .cons hspelled hlisting

theorem exists_fills_iff_exists_chain {image : Image} (hsize : image.length < 65536) :
    (∃ listing, Listing.Fills listing 0 image) ↔ ∃ addresses, image.Chain 0 addresses := by
  constructor
  · rintro ⟨listing, h⟩
    exact ⟨_, h.chain List.drop_zero (Nat.zero_le _)⟩
  · rintro ⟨addresses, h⟩
    exact h.exists_fills hsize

/-- Disassembly has three outcomes. An image of 65355 bytes or more is refused,
    whatever it holds. Any other image has a listing exactly when the chain of its
    opcode words ends at its last byte; the addresses of the listing are that chain, each
    one is the one before plus the size of the instruction there, the sizes add up to the
    length of the image, every opcode is the word at its address, and an instruction takes
    from 2 to 16 bytes. In all other cases the error is found at the end of the image. -/
theorem disassemble_outcomes (image : Image) :
    ((disassemble image).value = .error (.oversize image.length) ↔ 65355 ≤ image.length) ∧
    (∀ length, (disassemble image).value = .error (.oversize length) → length = image.length) ∧
    (image.length < 65355 →
      ((∃ listing, (disassemble image).value = .ok listing) ↔
        ∃ addresses, image.Chain 0 addresses)) ∧
    (∀ listing, (disassemble image).value = .ok listing →
      image.Chain 0 (listing.map (·.address.toNat)) ∧
      (∀ i, listing[0]? = some i → i.address = 0) ∧
      (∀ k i j, listing[k]? = some i → listing[k + 1]? = some j →
        j.address.toNat = i.address.toNat + i.size) ∧
      (listing.map Instruction.size).sum = image.length ∧
      (∀ i ∈ listing, image.wordAt? i.address.toNat = some i.opcode) ∧
      2 * listing.length ≤ image.length ∧ image.length ≤ 16 * listing.length) ∧
    (image.length < 65355 → (¬ ∃ addresses, image.Chain 0 addresses) →
      (disassemble image).value = .error (.outOfData image.length image.length)) := by
  have hfills : image.length < 65355 →
      ((∃ listing, Listing.Fills listing 0 image) ↔ ∃ addresses, image.Chain 0 addresses) := by
    intro hsize
    exact exists_fills_iff_exists_chain (Nat.lt_trans hsize (by decide))
  refine ⟨?_, ?_, ?_, ?_, ?_⟩
  · rw [disassemble_eq_oversize_iff]
    exact and_iff_right rfl
  · intro length hvalue
    exact (disassemble_eq_oversize_iff.mp hvalue).1
  · intro hsize
    rw [← hfills hsize]
    apply exists_congr
    intro listing
    exact disassemble_eq_ok_iff.trans (and_iff_right hsize)
  · intro listing hvalue
    obtain ⟨-, h⟩ := disassemble_eq_ok_iff.mp hvalue
    refine ⟨h.chain List.drop_zero (Nat.zero_le _), ?_, ?_, h.length_eq, ?_, h.length_bounds⟩
    · intro i hi
      exact UInt16.toNat_inj.mp (h.address_first hi)
    · intro k i j hi hj
      exact h.address_next hi hj
    · intro i hi
      obtain ⟨bytes, rest, hdrop, hspelled⟩ := h.exists_drop_of_mem List.drop_zero hi
      exact hspelled.wordAt?_eq hdrop
  · intro hsize hnone
    rw [← hfills hsize] at hnone
    exact disassemble_of_not_fills hsize (not_exists.mp hnone)

/-- An unknown opcode takes its word only, and the jump behind it is found. -/
theorem disassemble_outcomes_unknown :
    let image : Image := [0xEE, 0xEE, 0x00, 0x15, 0x34, 0x12]
    let listing : Listing := [⟨0, 0xEEEE, none, []⟩, ⟨2, 0x1500, some "goto", [.location 0x1234]⟩]
    (disassemble image).value = .ok listing ∧ image.Chain 0 [0, 2] := by
  intro image listing
  have hvalue : (disassemble image).value = .ok listing := by
    simp only [image, listing]
    with_unfolding_all rfl
  obtain ⟨-, -, -, hlisting, -⟩ := disassemble_outcomes image
  exact ⟨hvalue, (hlisting listing hvalue).1⟩

end Disassembly
