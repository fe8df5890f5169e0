import Disassembly.Proofs.DecoderNotices
import Disassembly.Proofs.RunShape
import Disassembly.Proofs.LineByLine

/-!
# Notices follow the listing

What disassembly reports on the side can be told from the listing. A run makes the notices
of its steps, one after the other (`Run.notices_of_ok`, `Run.notices_of_fills`). Every
warning has its marker in the listing and every marker its warning, in the same order. If
the image ends too early, the warnings go as far as its last complete operand
(`notices_follow_listing`).
-/

namespace Disassembly

/-! ### Notices of runs -/

namespace Run

theorem collect_notices (r : Run) (found : Array Instruction) (notices : Array Notice) :
    (r.collect found notices).notices =
      match r.next.item with
      | none | some (.error _) => notices.toList ++ r.next.notices
      | some (.ok i) =>
          (r.next.run.collect (found.push i) (notices ++ r.next.notices)).notices := by
  rw [collect]
  split <;> simp_all

/-- The notices of a run from here to its end. -/
def notices (r : Run) : List Notice := (r.collect #[] #[]).notices

/-- What has been collected before has no part in the notices of a run. -/
theorem collect_notices_eq (r : Run) (found : Array Instruction) (notices : Array Notice) :
    (r.collect found notices).notices = notices.toList ++ r.notices := by
  induction hremaining : r.remaining using Nat.strongRecOn generalizing r found notices with
  | ind n ih =>
    rw [Run.notices, collect_notices, collect_notices r #[]]
    rcases hitem : r.next.item with _ | e | i
    · rfl
    · rfl
    · have hlt := remaining_next_lt hitem
      rw [hremaining] at hlt
      have hnext := ih _ hlt r.next.run (found.push i) (notices ++ r.next.notices) rfl
      have hfresh := ih _ hlt r.next.run (#[].push i)
        ((#[] : Array Notice) ++ r.next.notices) rfl
      simp only [hnext, hfresh]
      simp

theorem notices_of_ok {r : Run} {i : Instruction} (h : r.next.item = some (.ok i)) :
    r.notices = r.next.notices ++ r.next.run.notices := by
  rw [notices, collect_notices, h]
  simp only [collect_notices_eq]
  simp

theorem notices_of_error {r : Run} {e : DecodeError} (h : r.next.item = some (.error e)) :
    r.notices = r.next.notices := by
  rw [notices, collect_notices, h]
  rfl

theorem next_notices_scanning {c : Cursor} (hmore : c.hasMore = true) :
    (scanning c).next.notices = (Decoder.instruction c).notices := by
  simp only [next, if_pos hmore, Turn.ofStep]
  split <;> rfl

/-- A run over instructions makes the notices about each of them, and then those about
    what follows. -/
theorem notices_of_fills {listing : Listing} {position : Nat} {bytes : Image}
    (h : listing.Fills position bytes) (rest : Image) :
    (scanning ⟨position, bytes ++ rest⟩).notices =
      listing.flatMap Instruction.notices ++
        (scanning ⟨position + bytes.length, rest⟩).notices := by
  induction h with
  | nil => rfl
  | @cons i listing first bytes hspelled _ ih =>
    have hmore : Cursor.hasMore ⟨i.address.toNat, first ++ (bytes ++ rest)⟩ = true := by
      obtain ⟨low, high, fields, rfl, -⟩ := hspelled.exists_opcode
      rfl
    obtain ⟨hitem, hrun⟩ := next_of_spelledBy hspelled (bytes ++ rest)
    rw [List.append_assoc, notices_of_ok hitem, hrun, ih, next_notices_scanning hmore,
      Decoder.notices_instruction_of_spelledBy hspelled, List.flatMap_cons, List.length_append,
      Nat.add_assoc, List.append_assoc]

theorem notices_of_cutOff {address : UInt16} {bytes : Image} {notices : List Notice}
    (hbytes : bytes ≠ []) (h : CutOff address bytes notices) :
    (scanning ⟨address.toNat, bytes⟩).notices = notices := by
  have hmore : Cursor.hasMore ⟨address.toNat, bytes⟩ = true := by
    cases bytes with
    | nil => exact absurd rfl hbytes
    | cons byte bytes => rfl
  obtain ⟨hitem, -⟩ := next_scanning_of_starves hmore h.starves
  rw [notices_of_error hitem, next_notices_scanning hmore, h.notices_instruction]

end Run

/-! ### Notices of disassembly -/

theorem disassemble_notices (image : Image) :
    (disassemble image).notices =
      (Run.start image).notices ++
        match (disassemble image).value with
        | .ok listing => [.listed listing.length image.length]
        | .error _ => [] := by
  rw [disassemble_value]
  unfold disassemble Run.notices
  cases h : ((Run.start image).collect #[] #[]).value <;> simp [h]

theorem disassemble_notices_of_ok {image : Image} {listing : Listing}
    (h : (disassemble image).value = .ok listing) :
    (disassemble image).notices =
      listing.flatMap Instruction.notices ++ [.listed listing.length image.length] := by
  obtain ⟨hsize, hfills⟩ := disassemble_eq_ok_iff.mp h
  have hrun := Run.notices_of_fills hfills []
  have hend : (Run.scanning ⟨0 + image.length, []⟩).notices = [] := by
    rw [Run.notices, Run.collect_notices]
    rfl
  rw [List.append_nil, hend, List.append_nil] at hrun
  rw [disassemble_notices, h, Run.start, if_neg (Nat.not_le.mpr hsize), ← hrun]
  rfl

theorem disassemble_notices_of_oversize {image : Image} (h : Image.sizeLimit ≤ image.length) :
    (disassemble image).notices = [.refused image.length] := by
  rw [disassemble_notices, disassemble_of_oversize h, Run.start, if_pos h, Run.notices,
    Run.collect_notices]
  rfl

/-- The image ends inside an instruction. Those in front of it are its listing up to
    there, and the notices are the ones about the operands of that instruction which are
    complete. -/
def Image.Interrupted (image : Image) (found : Listing) (notices : List Notice) : Prop :=
  ∃ whole cut : Image, image = whole ++ cut ∧ (disassemble whole).value = .ok found ∧
    cut ≠ [] ∧ CutOff (.ofNat whole.length) cut notices

theorem toNat_ofNat_length {whole : Image} (h : whole.length < 65536) :
    (UInt16.ofNat whole.length).toNat = 0 + whole.length := by
  rw [Nat.zero_add]
  exact UInt16.toNat_ofNat_of_lt h

theorem Image.Interrupted.disassemble_notices {image : Image} {found : Listing}
    {notices : List Notice} (hsize : image.length < Image.sizeLimit)
    (h : image.Interrupted found notices) :
    (disassemble image).notices = found.flatMap Instruction.notices ++ notices := by
  obtain ⟨whole, cut, rfl, hwhole, hcut, hnotices⟩ := h
  obtain ⟨hshort, hfills⟩ := disassemble_eq_ok_iff.mp hwhole
  have haddress := toNat_ofNat_length (Nat.lt_trans hshort (by decide))
  have hstarves := hnotices.starves
  have hrest := Run.notices_of_cutOff hcut hnotices
  rw [haddress] at hstarves hrest
  obtain ⟨byte, cut, rfl⟩ := List.exists_cons_of_ne_nil hcut
  rw [Disassembly.disassemble_notices,
    disassemble_of_not_fills hsize (hfills.not_fills_of_starves hstarves), Run.start,
    if_neg (Nat.not_le.mpr hsize), List.append_nil, Cursor.start, Run.notices_of_fills hfills, hrest]

theorem exists_interrupted {image : Image} (hsize : image.length < Image.sizeLimit)
    (h : ∀ listing, ¬ Listing.Fills listing 0 image) :
    ∃ found notices, image.Interrupted found notices := by
  have haddresses : 0 + image.length < 65536 := by
    unfold Image.sizeLimit at hsize
    omega
  obtain ⟨found, whole, cut, rfl, hfound, hstarves⟩ := exists_fills_starves haddresses
  rw [List.length_append] at hsize haddresses
  have hwhole : whole.length < 65536 := by omega
  rw [← toNat_ofNat_length hwhole] at hstarves
  obtain ⟨notices, hnotices⟩ := CutOff.exists_of_starves hstarves
  refine ⟨found, notices, whole, cut, rfl, disassemble_of_fills (by omega) hfound, ?_, hnotices⟩
  rintro rfl
  rw [List.append_nil] at h
  exact h found hfound

/-! ### Warnings and markers -/

/-- The markers of a listing in the order of its tokens, each with the instruction in
    whose line it stands. -/
def Listing.markers (listing : Listing) : List (Instruction × Unknown) :=
  listing.flatMap fun i => (i.line.filterMap Token.unknown?).map (i, ·)

def Notice.isWarning (notice : Notice) : Bool := notice.severity = .warning

theorem filterMap_intercalate_comma (groups : List (List Token)) :
    (List.intercalate [Token.comma] groups).filterMap Token.unknown? =
      groups.flatMap (List.filterMap Token.unknown?) := by
  cases groups with
  | nil => rfl
  | cons group groups =>
    rw [intercalate_comma_cons, List.filterMap_append, List.flatMap_cons]
    congr 1
    induction groups with
    | nil => rfl
    | cons other groups ih =>
      rw [List.flatMap_cons, List.filterMap_append, ih, List.flatMap_cons]
      rfl

/-- The markers of a line are the mark of an unknown opcode and those of its operands. -/
theorem Instruction.filterMap_line (i : Instruction) :
    i.line.filterMap Token.unknown? =
      i.head.unknown?.toList ++
        i.operands.flatMap fun operand => operand.tokens.filterMap Token.unknown? := by
  have hbody : i.body.filterMap Token.unknown? = i.head.unknown?.toList ++
      i.operands.flatMap fun operand => operand.tokens.filterMap Token.unknown? := by
    rw [body, List.filterMap_cons, filterMap_intercalate_comma, List.flatMap_map]
    cases i.head.unknown? <;> rfl
  have hwords : [Token.word i.address, .word i.opcode].filterMap Token.unknown? = [] := rfl
  have hbreak : [Token.lineBreak].filterMap Token.unknown? = [] := rfl
  rw [line, List.filterMap_append, List.filterMap_append, hbody, hwords, hbreak, List.nil_append,
    List.append_nil]

theorem Operand.severity_of_mem_warnings {address opcode : UInt16} {operands : List Operand}
    {notice : Notice} (h : notice ∈ operands.flatMap (warnings address opcode)) :
    notice.severity = .warning := by
  obtain ⟨operand, -, hmem⟩ := List.mem_flatMap.mp h
  obtain ⟨what, -, rfl⟩ := List.mem_map.mp hmem
  cases what <;> rfl

theorem Operand.filter_warnings (address opcode : UInt16) (operands : List Operand) :
    (operands.flatMap (warnings address opcode)).filter Notice.isWarning =
      operands.flatMap (warnings address opcode) := by
  rw [List.filter_eq_self]
  intro notice hnotice
  exact decide_eq_true (severity_of_mem_warnings hnotice)

/-- The warnings about an instruction are those that its markers stand for. -/
theorem Instruction.WellFormed.filter_notices {i : Instruction} (h : i.WellFormed) :
    i.notices.filter Notice.isWarning =
      (i.line.filterMap Token.unknown?).map (Unknown.notice i.address i.opcode) := by
  rw [notices, List.filter_append, Operand.filter_warnings, filterMap_line, List.map_append,
    List.map_flatMap]
  cases hmnemonic : i.mnemonic with
  | some mnemonic =>
    have hhead : i.head.unknown? = none := by simp [head, hmnemonic, Token.unknown?]
    rw [hhead]
    exact List.append_nil _
  | none =>
    -- An unknown opcode has no operands, so its warning is the only one.
    have hform : opcodeTable.lookup i.opcode = none := by
      have hnone := h.mnemonic_eq
      rw [hmnemonic] at hnone
      exact Option.map_eq_none_iff.mp hnone.symm
    have hoperands : i.operands = [] := by
      have hkinds := h.kinds_eq
      rw [hform] at hkinds
      exact List.map_eq_nil_iff.mp hkinds
    have hhead : i.head.unknown? = some .opcode := by simp [head, hmnemonic, Token.unknown?]
    rw [hhead, hoperands]
    rfl

theorem Listing.map_snd_markers (listing : Listing) :
    listing.markers.map Prod.snd = listing.tokens.filterMap Token.unknown? := by
  induction listing with
  | nil => rfl
  | cons i listing ih =>
    have htokens : Listing.tokens (i :: listing) = i.line ++ Listing.tokens listing :=
      List.flatMap_cons
    have hmarkers : Listing.markers (i :: listing) =
        (i.line.filterMap Token.unknown?).map (i, ·) ++ Listing.markers listing :=
      List.flatMap_cons
    rw [htokens, hmarkers, List.map_append, List.filterMap_append, ih, List.map_map]
    exact congrArg (· ++ _) (List.map_id _)

theorem Listing.filter_notices {listing : Listing} (h : ∀ i ∈ listing, i.WellFormed) :
    (listing.flatMap Instruction.notices).filter Notice.isWarning =
      listing.markers.map fun marker => marker.2.notice marker.1.address marker.1.opcode := by
  induction listing with
  | nil => rfl
  | cons i listing ih =>
    obtain ⟨hfirst, hothers⟩ := List.forall_mem_cons.mp h
    rw [List.flatMap_cons, List.filter_append, hfirst.filter_notices, ih hothers]
    simp [Listing.markers]

theorem Instruction.severity_ne_error {i : Instruction} {notice : Notice} (h : notice ∈ i.notices) :
    notice.severity ≠ .error := by
  intro herror
  rcases List.mem_append.mp h with hoperand | hwhole
  · cases (Operand.severity_of_mem_warnings hoperand).symm.trans herror
  · rw [List.mem_singleton.mp hwhole] at herror
    split at herror <;> cases herror

theorem CutOff.severity_eq {address : UInt16} {bytes : Image} {notices : List Notice}
    (h : CutOff address bytes notices) {notice : Notice} (hnotice : notice ∈ notices) :
    notice.severity = .warning := by
  cases h with
  | opcode => cases hnotice
  | operand => exact Operand.severity_of_mem_warnings hnotice

/-- The only error that is reported is that an image is too long. -/
theorem severity_eq_error_iff {image : Image} {notice : Notice}
    (h : notice ∈ (disassemble image).notices) :
    notice.severity = .error ↔ notice = .refused image.length := by
  refine ⟨?_, fun hrefused => by rw [hrefused]; rfl⟩
  intro herror
  rcases disassemble_cases image with ⟨hover, -⟩ | ⟨-, listing, -, hvalue⟩ | ⟨hsize, hnone, -⟩
  · rw [disassemble_notices_of_oversize hover] at h
    exact List.mem_singleton.mp h
  · rw [disassemble_notices_of_ok hvalue] at h
    rcases List.mem_append.mp h with h | h
    · obtain ⟨i, -, hi⟩ := List.mem_flatMap.mp h
      exact absurd herror (Instruction.severity_ne_error hi)
    · rw [List.mem_singleton.mp h] at herror
      cases herror
  · obtain ⟨found, notices, hinterrupted⟩ := exists_interrupted hsize hnone
    rw [hinterrupted.disassemble_notices hsize] at h
    obtain ⟨_, _, -, -, -, hcut⟩ := hinterrupted
    rcases List.mem_append.mp h with h | h
    · obtain ⟨i, -, hi⟩ := List.mem_flatMap.mp h
      exact absurd herror (Instruction.severity_ne_error hi)
    · cases (hcut.severity_eq h).symm.trans herror

/-- The notices of disassembly are determined by the image as follows. If it has a
    listing, they are those about each instruction, in the order of addresses: one for each
    marker among its operands and then one about the whole; and at the end the number of
    instructions and of bytes. The warnings among them stand for the markers of the listing,
    one for each and in the same order: an unknown opcode with its address, an unknown type
    byte with its position, which is four bytes behind the address, and an unknown tag. If
    the image ends too early, the notices are those about the instructions in front of the
    one that is cut off, and then the warnings about the operands of that one which are
    complete. If the image is too long, its length is the only notice, and no other notice
    is an error. -/
theorem notices_follow_listing (image : Image) :
    (∀ listing, (disassemble image).value = .ok listing →
      (disassemble image).notices =
        listing.flatMap Instruction.notices ++ [.listed listing.length image.length] ∧
      listing.markers.map Prod.snd = listing.tokens.filterMap Token.unknown? ∧
      (disassemble image).notices.filter Notice.isWarning =
        listing.markers.map fun marker => marker.2.notice marker.1.address marker.1.opcode) ∧
    (∀ offset length, (disassemble image).value = .error (.outOfData offset length) →
      (∃ found warnings, image.Interrupted found warnings) ∧
      ∀ found warnings, image.Interrupted found warnings →
        (disassemble image).notices = found.flatMap Instruction.notices ++ warnings) ∧
    (65355 ≤ image.length → (disassemble image).notices = [.refused image.length]) ∧
    ∀ notice ∈ (disassemble image).notices,
      (notice.severity = .error ↔ notice = .refused image.length) := by
  refine ⟨?_, ?_, disassemble_notices_of_oversize, fun _ => severity_eq_error_iff⟩
  · intro listing h
    obtain ⟨-, hfills⟩ := disassemble_eq_ok_iff.mp h
    obtain ⟨hwell, -⟩ := hfills.wellFormed
    refine ⟨disassemble_notices_of_ok h, listing.map_snd_markers, ?_⟩
    rw [disassemble_notices_of_ok h, List.filter_append, Listing.filter_notices hwell]
    exact List.append_nil _
  · intro offset length h
    rcases disassemble_cases image with ⟨-, hvalue⟩ | ⟨-, _, -, hvalue⟩ | ⟨hsize, hnone, -⟩
    · cases hvalue.symm.trans h
    · cases hvalue.symm.trans h
    · refine ⟨exists_interrupted hsize hnone, ?_⟩
      intro found warnings hinterrupted
      exact hinterrupted.disassemble_notices hsize

/-- A move between two offset expressions of which the second is cut off. The unknown tag
    in the first one is noticed. -/
theorem notices_follow_listing_truncated :
    let image : Image := [0x01, 0x00, 0x26, 0x11, 0x05, 0x10, 0x00, 0xFF, 0x02, 0x20, 0x00,
      0x07, 0x34]
    let first : Instruction := ⟨0, 0x0001, some "ret", []⟩
    (disassemble image).value = .error (.outOfData 13 13) ∧
      image.Interrupted [first] [.unknownTag 5] ∧
      (disassemble image).notices = [.decoded 0 0x0001 "ret", .unknownTag 5] := by
  intro image first
  have hvalue : (disassemble image).value = .error (.outOfData 13 13) := by
    simp only [image]
    with_unfolding_all rfl
  have hopcode : LittleEndian 0x26 0x11 0x1126 := rfl
  have hkinds : Form.kindsOf 0x1126 = [.offset] ++ .offset :: [] := rfl
  have hlhs : LittleEndian 0x10 0x00 0x0010 := rfl
  have hrhs : LittleEndian 0x20 0x00 0x0020 := rfl
  have hfield : Spells .offset [0x05, 0x10, 0x00, 0xFF, 0x02, 0x20, 0x00]
      (.offset ⟨.unknown 0x05 0x0010, .add, .address 0x0020⟩) :=
    .offset hlhs (.unknown (by decide)) (.add (by decide)) hrhs .address
  have hrest : List.length ([0x07, 0x34] : Image) < OperandKind.offset.width := by decide
  have hcut : CutOff 2 (image.drop 2) [.unknownTag 5] :=
    .operand hopcode hkinds (.cons hfield .nil) hrest
  have hinterrupted : image.Interrupted [first] [.unknownTag 5] := by
    refine ⟨image.take 2, image.drop 2, rfl, ?_, by simp [image], hcut⟩
    simp only [image, first]
    with_unfolding_all rfl
  obtain ⟨-, hshort, -⟩ := notices_follow_listing image
  obtain ⟨-, hnotices⟩ := hshort 13 13 hvalue
  exact ⟨hvalue, hinterrupted, hnotices _ _ hinterrupted⟩

end Disassembly
