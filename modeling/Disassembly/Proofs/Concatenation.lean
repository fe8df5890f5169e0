import Disassembly.Proofs.Tiling

/-!
# Concatenated images

An instruction does not depend on the bytes in front of it, on those behind it or on
the address it stands at. So listings can be joined and taken apart at every address
where an instruction begins (`Listing.Fills.append`, `Listing.Fills.exists_of_append`),
and what fills some bytes at one address fills them at another when it is moved there
(`Listing.Fills.relocate`).

An image that has a listing is therefore harmless in front of any other image: the
listing of both is the one of the first followed by the one of the second, whose
addresses are moved up by the length of the first (`disassemble_append`).
-/

namespace Disassembly

/-! ### Relocation -/

/-- The same instruction at an address further up. -/
def Instruction.relocate (distance : Nat) (i : Instruction) : Instruction :=
  { i with address := .ofNat (i.address.toNat + distance) }

theorem Instruction.toNat_address_relocate {i : Instruction} {distance : Nat}
    (hfits : i.address.toNat + distance < 65536) :
    (i.relocate distance).address.toNat = i.address.toNat + distance :=
  UInt16.toNat_ofNat_of_lt hfits

theorem Instruction.SpelledBy.at_address {i : Instruction} {bytes : Image}
    (h : i.SpelledBy bytes) (address : UInt16) :
    Instruction.SpelledBy { i with address := address } bytes := by
  cases h with
  | mk hopcode hfields => exact .mk hopcode hfields

namespace Listing.Fills

variable {listing : Listing} {position : Nat} {bytes : Image}

theorem address_add_two_le (h : listing.Fills position bytes) {i : Instruction}
    (hi : i ∈ listing) : i.address.toNat + 2 ≤ position + bytes.length := by
  induction h with
  | nil => cases hi
  | @cons j listing first rest hspelled _ ih =>
    have htwo := hspelled.two_le_length
    rw [List.length_append]
    rcases List.mem_cons.mp hi with rfl | hi
    · omega
    · have hlater := ih hi
      omega

theorem relocate {distance : Nat} (h : listing.Fills position bytes)
    (hfits : position + bytes.length + distance < 65536) :
    Fills (listing.map (Instruction.relocate distance)) (position + distance) bytes := by
  induction h with
  | nil => exact .nil
  | @cons i listing first rest hspelled _ ih =>
    rw [List.length_append] at hfits
    have haddress : (i.relocate distance).address.toNat = i.address.toNat + distance :=
      Instruction.toNat_address_relocate (by omega)
    have hrest := ih (by omega)
    rw [Nat.add_right_comm, ← haddress] at hrest
    rw [List.map_cons, ← haddress]
    exact .cons (hspelled.at_address _) hrest

/-- Bytes that are filled further up can be filled here as well. -/
theorem exists_of_add {distance : Nat} (h : listing.Fills (position + distance) bytes) :
    ∃ other : Listing, other.Fills position bytes := by
  generalize hstart : position + distance = start at h
  induction h generalizing position with
  | nil => exact ⟨[], .nil⟩
  | @cons i listing first rest hspelled _ ih =>
    have hlt : position < 65536 := by
      have := i.address.toNat_lt
      omega
    have haddress : (UInt16.ofNat position).toNat = position := UInt16.toNat_ofNat_of_lt hlt
    obtain ⟨other, hother⟩ := @ih (position + first.length) (by omega)
    rw [← haddress] at hother ⊢
    exact ⟨_, .cons (hspelled.at_address (.ofNat position)) hother⟩

/-! ### Joining and taking apart -/

theorem append {other : Listing} {rest : Image} (h : listing.Fills position bytes)
    (hrest : other.Fills (position + bytes.length) rest) :
    Fills (listing ++ other) position (bytes ++ rest) := by
  induction h with
  | nil => exact hrest
  | cons hspelled _ ih =>
    rw [List.length_append, ← Nat.add_assoc] at hrest
    rw [List.append_assoc]
    exact .cons hspelled (ih hrest)

/-- If the bytes begin with those of an instruction, so does the listing. -/
theorem exists_tail {i : Instruction} {first rest : Image} (hspelled : i.SpelledBy first)
    (h : listing.Fills i.address.toNat (first ++ rest)) :
    ∃ other : Listing, listing = i :: other ∧
      other.Fills (i.address.toNat + first.length) rest := by
  generalize hposition : i.address.toNat = position at h
  generalize hbytes : first ++ rest = bytes at h
  cases h with
  | nil =>
    obtain ⟨low, high, fields, rfl, -⟩ := hspelled.exists_opcode
    cases hbytes
  | @cons j other first' rest' hspelled' hrest =>
    obtain ⟨rfl, rfl⟩ := hspelled.append_inj hspelled' hbytes
    obtain rfl := hspelled.unique hspelled' (UInt16.toNat_inj.mp hposition)
    exact ⟨other, rfl, hrest⟩

theorem exists_of_append {whole : Listing} {rest : Image} (h : listing.Fills position bytes)
    (hwhole : whole.Fills position (bytes ++ rest)) :
    ∃ other : Listing, whole = listing ++ other ∧
      other.Fills (position + bytes.length) rest := by
  induction h generalizing whole with
  | nil => exact ⟨whole, rfl, hwhole⟩
  | @cons i listing first bytes hspelled _ ih =>
    rw [List.append_assoc] at hwhole
    obtain ⟨tail, rfl, htail⟩ := exists_tail hspelled hwhole
    obtain ⟨other, rfl, hother⟩ := ih htail
    rw [Nat.add_assoc, ← List.length_append] at hother
    exact ⟨other, rfl, hother⟩

end Listing.Fills

/-- With an image that has a listing in front of it, another image has a listing
    exactly when it has one by itself. The listing of both is the first one followed by
    the second one with every address moved up, within sixteen bits, by the length of
    the first image. If the second image ends too early then so do both, at the end of
    the second. -/
theorem disassemble_append (a b : Image) (listing : Listing)
    (ha : (disassemble a).value = .ok listing) (hsize : a.length + b.length < 65355) :
    ((∃ whole, (disassemble (a ++ b)).value = .ok whole) ↔
      ∃ other, (disassemble b).value = .ok other) ∧
    (∀ other, (disassemble b).value = .ok other →
      (disassemble (a ++ b)).value = .ok (listing ++ other.map (Instruction.relocate a.length)) ∧
      ∀ i ∈ other, (i.relocate a.length).address.toNat = i.address.toNat + a.length) ∧
    (∀ offset length, (disassemble b).value = .error (.outOfData offset length) →
      (disassemble (a ++ b)).value =
        .error (.outOfData (a.length + b.length) (a.length + b.length))) := by
  obtain ⟨-, hlisting⟩ := disassemble_eq_ok_iff.mp ha
  have hlimit : (a ++ b).length < Image.sizeLimit := by
    rw [List.length_append]
    exact hsize
  have hb : b.length < Image.sizeLimit := Nat.lt_of_le_of_lt (Nat.le_add_left _ _) hsize
  -- Whatever fills both images ends in a listing that fills the second one.
  have hback : ∀ whole, Listing.Fills whole 0 (a ++ b) → ∃ other, Listing.Fills other 0 b := by
    intro whole hwhole
    obtain ⟨moved, -, hmoved⟩ := hlisting.exists_of_append hwhole
    exact hmoved.exists_of_add
  have hjoin : ∀ other, (disassemble b).value = .ok other →
      (disassemble (a ++ b)).value = .ok (listing ++ other.map (Instruction.relocate a.length)) := by
    intro other hvalue
    obtain ⟨-, hother⟩ := disassemble_eq_ok_iff.mp hvalue
    exact disassemble_of_fills hlimit (hlisting.append (hother.relocate (by omega)))
  refine ⟨⟨?_, ?_⟩, ?_, ?_⟩
  · rintro ⟨whole, hvalue⟩
    obtain ⟨-, hwhole⟩ := disassemble_eq_ok_iff.mp hvalue
    obtain ⟨other, hother⟩ := hback whole hwhole
    exact ⟨other, disassemble_of_fills hb hother⟩
  · rintro ⟨other, hvalue⟩
    exact ⟨_, hjoin other hvalue⟩
  · intro other hvalue
    refine ⟨hjoin other hvalue, ?_⟩
    intro i hi
    obtain ⟨-, hother⟩ := disassemble_eq_ok_iff.mp hvalue
    have hinside := hother.address_add_two_le hi
    exact Instruction.toNat_address_relocate (by omega)
  · intro offset length hvalue
    rw [← List.length_append]
    apply disassemble_of_not_fills hlimit
    intro whole hwhole
    obtain ⟨other, hother⟩ := hback whole hwhole
    rw [disassemble_of_fills hb hother] at hvalue
    cases hvalue

/-- A call behind a creation whose type is unknown. -/
theorem disassemble_append_call :
    let a : Image := [0x00, 0x05, 0x34, 0x12, 0x09]
    let b : Image := [0x10, 0x15, 0x05, 0x00]
    let first : Instruction := ⟨0, 0x0500, some "vnew", [.var 0x1234, .dataType (.unknown 9)]⟩
    let second : Instruction := ⟨0, 0x1510, some "call", [.location 5]⟩
    (disassemble a).value = .ok [first] ∧ a.length + b.length < 65355 ∧
      (disassemble b).value = .ok [second] ∧
      (disassemble (a ++ b)).value = .ok [first, { second with address := 5 }] := by
  intro a b first second
  have ha : (disassemble a).value = .ok [first] := by
    simp only [a, first]
    with_unfolding_all rfl
  have hb : (disassemble b).value = .ok [second] := by
    simp only [b, second]
    with_unfolding_all rfl
  obtain ⟨-, hjoin, -⟩ := disassemble_append a b [first] ha (by decide)
  exact ⟨ha, by decide, hb, (hjoin [second] hb).1⟩

end Disassembly
