import Disassembly.Proofs.Concatenation

/-!
# Images that are cut off

A listing can be cut at the beginning of each of its instructions and at its end, and
nowhere else: the bytes in front of such a boundary are filled by the instructions in
front of it (`Listing.Fills.exists_cut`), and if the bytes in front of a place are filled
at all then it is a boundary (`Listing.Fills.boundary_of_append`).

So a beginning of an image that has a listing either has a part of this listing or ends
too early, and then the error is found at the place of the cut (`disassemble_take`).
-/

namespace Disassembly

/-- An instruction of the listing begins at this place, or it is where the bytes end. -/
def Listing.Boundary (listing : Listing) (finish place : Nat) : Prop :=
  place = finish ∨ ∃ i ∈ listing, i.address.toNat = place

namespace Listing.Fills

variable {listing : Listing} {position : Nat} {bytes : Image}

theorem position_le_address (h : listing.Fills position bytes) {i : Instruction}
    (hi : i ∈ listing) : position ≤ i.address.toNat := by
  induction h with
  | nil => cases hi
  | cons hspelled _ ih =>
    rcases List.mem_cons.mp hi with rfl | hi
    · exact Nat.le_refl _
    · exact Nat.le_trans (Nat.le_add_right _ _) (ih hi)

/-- Each part of a listing fills its part of the bytes. -/
theorem exists_parts {first second : Listing} (h : Fills (first ++ second) position bytes) :
    ∃ x y : Image, bytes = x ++ y ∧ first.Fills position x ∧
      second.Fills (position + x.length) y := by
  induction first generalizing position bytes with
  | nil => exact ⟨[], bytes, rfl, .nil, h⟩
  | cons i first ih =>
    cases h with
    | @cons _ _ own rest hspelled hrest =>
      obtain ⟨x, y, rfl, hfirst, hsecond⟩ := ih hrest
      refine ⟨own ++ x, y, (List.append_assoc ..).symm, .cons hspelled hfirst, ?_⟩
      rw [List.length_append, ← Nat.add_assoc]
      exact hsecond

/-- At a boundary the listing and the bytes come apart. -/
theorem exists_cut {place : Nat} (h : listing.Fills position bytes)
    (hplace : listing.Boundary (position + bytes.length) place) :
    ∃ (first second : Listing) (x y : Image), listing = first ++ second ∧ bytes = x ++ y ∧
      position + x.length = place ∧ first.Fills position x ∧ second.Fills place y := by
  rcases hplace with rfl | ⟨i, hi, rfl⟩
  · exact ⟨listing, [], bytes, [], (List.append_nil _).symm, (List.append_nil _).symm, rfl, h, .nil⟩
  · obtain ⟨first, later, rfl⟩ := List.append_of_mem hi
    obtain ⟨x, y, rfl, hfirst, hsecond⟩ := h.exists_parts
    have haddress : i.address.toNat = position + x.length := hsecond.address_first rfl
    exact ⟨first, i :: later, x, y, rfl, rfl, haddress.symm, hfirst, haddress ▸ hsecond⟩

/-- Where a listing of a beginning ends, the whole listing has a boundary. -/
theorem boundary_of_append {whole : Listing} {rest : Image} (h : listing.Fills position bytes)
    (hwhole : whole.Fills position (bytes ++ rest)) :
    whole.Boundary (position + (bytes ++ rest).length) (position + bytes.length) := by
  obtain ⟨other, rfl, hother⟩ := h.exists_of_append hwhole
  cases other with
  | nil =>
    cases hother
    exact Or.inl (by rw [List.append_nil])
  | cons i other =>
    exact Or.inr ⟨i, List.mem_append_right _ List.mem_cons_self, hother.address_first rfl⟩

/-- The instructions in front of a cut are those with an address below it. -/
theorem filter_address_lt {first second : Listing} {place : Nat} {rest : Image}
    (hfirst : first.Fills position bytes) (hplace : position + bytes.length = place)
    (hsecond : second.Fills place rest) :
    (first ++ second).filter (·.address.toNat < place) = first := by
  have hbelow : ∀ i ∈ first, decide (i.address.toNat < place) = true := by
    intro i hi
    have hend := hfirst.address_add_two_le hi
    exact decide_eq_true (by omega)
  have habove : ∀ i ∈ second, ¬ decide (i.address.toNat < place) = true := by
    intro i hi
    have hle := hsecond.position_le_address hi
    simpa using hle
  rw [List.filter_append, List.filter_eq_self.mpr hbelow, List.filter_eq_nil_iff.mpr habove,
    List.append_nil]

end Listing.Fills

/-- A beginning of an image that has a listing has one exactly when the cut is at a
    boundary, which is the address of an instruction or the end of the image. Its listing
    is then made of the instructions with an address below the cut. Everywhere else the
    beginning ends too early, and the error is found where it was cut. -/
theorem disassemble_take (image : Image) (listing : Listing) (count : Nat)
    (h : (disassemble image).value = .ok listing) (hcount : count ≤ image.length) :
    ((∃ part, (disassemble (image.take count)).value = .ok part) ↔
      listing.Boundary image.length count) ∧
    (listing.Boundary image.length count →
      (disassemble (image.take count)).value =
        .ok (listing.filter (·.address.toNat < count))) ∧
    (¬ listing.Boundary image.length count →
      (disassemble (image.take count)).value = .error (.outOfData count count)) := by
  obtain ⟨hsize, hfills⟩ := disassemble_eq_ok_iff.mp h
  have hlength : (image.take count).length = count := List.length_take_of_le hcount
  have hshort : (image.take count).length < Image.sizeLimit := by
    rw [hlength]
    exact Nat.lt_of_le_of_lt hcount hsize
  have hback : ∀ part, Listing.Fills part 0 (image.take count) →
      listing.Boundary image.length count := by
    intro part hpart
    rw [← List.take_append_drop count image] at hfills
    have hboundary := hpart.boundary_of_append hfills
    rwa [List.take_append_drop, hlength, Nat.zero_add, Nat.zero_add] at hboundary
  have hcut : listing.Boundary image.length count →
      (disassemble (image.take count)).value =
        .ok (listing.filter (·.address.toNat < count)) := by
    intro hboundary
    rw [← Nat.zero_add image.length] at hboundary
    obtain ⟨first, second, x, y, rfl, rfl, hplace, hfirst, hsecond⟩ :=
      hfills.exists_cut hboundary
    obtain rfl : x.length = count := by omega
    rw [hfirst.filter_address_lt hplace hsecond]
    rw [List.take_left] at hshort ⊢
    exact disassemble_of_fills hshort hfirst
  refine ⟨⟨?_, fun hboundary => ⟨_, hcut hboundary⟩⟩, hcut, ?_⟩
  · rintro ⟨part, hpart⟩
    exact hback part (disassemble_eq_ok_iff.mp hpart).2
  · intro hinside
    have hnone := disassemble_of_not_fills hshort fun part hpart => hinside (hback part hpart)
    rwa [hlength] at hnone

/-- Two instructions, cut between them and in the operand of the second. -/
theorem disassemble_take_call :
    let image : Image := [0x00, 0x05, 0x34, 0x12, 0x09, 0x10, 0x15, 0x05, 0x00]
    let first : Instruction := ⟨0, 0x0500, some "vnew", [.var 0x1234, .dataType (.unknown 9)]⟩
    let second : Instruction := ⟨5, 0x1510, some "call", [.location 5]⟩
    (disassemble image).value = .ok [first, second] ∧ 5 ≤ image.length ∧ 8 ≤ image.length ∧
      (disassemble (image.take 5)).value = .ok [first] ∧
      (disassemble (image.take 8)).value = .error (.outOfData 8 8) := by
  intro image first second
  have hvalue : (disassemble image).value = .ok [first, second] := by
    simp only [image, first, second]
    with_unfolding_all rfl
  obtain ⟨-, hfive, -⟩ := disassemble_take image _ 5 hvalue (by decide)
  obtain ⟨-, -, height⟩ := disassemble_take image _ 8 hvalue (by decide)
  refine ⟨hvalue, by decide, by decide, hfive (Or.inr ⟨second, by simp, rfl⟩), height ?_⟩
  simp [Listing.Boundary, image, first, second]

end Disassembly
