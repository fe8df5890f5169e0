import Disassembly.Proofs.Concatenation

/-!
# The shape of a run

What a run answers when it is asked for the next instruction again and again, also
after its end. It gives instructions, then at most one error, then nothing for ever,
and its position moves with the instructions it gives (`run_shape`).

Two arguments carry this. What a single request can do is said once, for every run
that goes over an image (`Run.Over.next_cases`), and the run after any number of
requests is such a run (`Run.over_after`). Which instructions come before the end is
seen in the image: they fill the longest beginning of it that can be filled
(`Listing.Fills.length_le_of_starves`).
-/

namespace Disassembly

namespace Run

/-- The run after so many requests. -/
def after : Run → Nat → Run
  | r, 0 => r
  | r, n + 1 => after r.next.run n

/-- The answer to the request that follows `k` others. -/
def answer (r : Run) (k : Nat) : Option (Except DecodeError Instruction) :=
  (r.after k).next.item

theorem after_succ (r : Run) (n : Nat) : r.after (n + 1) = (r.after n).next.run := by
  induction n generalizing r with
  | zero => rfl
  | succ n ih => exact ih r.next.run

/-! ### One request -/

/-- A run over an image is refused because of its length, or it stands somewhere in
    the image, or it is finished. -/
inductive Over (image : Image) : Run → Prop where
  | refused (hover : Image.sizeLimit ≤ image.length) : Over image (refused image.length)
  | scanning {position : Nat} (hsize : image.length < Image.sizeLimit)
      (hinside : position ≤ image.length) : Over image (scanning (.after image position))
  | finished {position : Nat} : Over image (finished position)

variable {image : Image}

theorem over_start (image : Image) : Over image (start image) := by
  unfold start
  split
  · rename_i hover
    exact .refused hover
  · rename_i hsize
    exact @Over.scanning image 0 (Nat.not_le.mp hsize) (Nat.zero_le _)

/-- What a request does: it gives the instruction at the position of the run and moves
    behind it, or it fails at the end of the image, or it refuses the image, or it gives
    nothing and moves nowhere. -/
theorem Over.next_cases {r : Run} (h : r.Over image) :
    (∃ i : Instruction, r.next.item = some (.ok i) ∧ i.address.toNat = r.position ∧
      2 ≤ i.size ∧ r.next.run.position = r.position + i.size ∧ r.next.run.Over image) ∨
    (r.next.item = some (.error (.outOfData image.length image.length)) ∧
      r.next.run = Run.finished image.length) ∨
    (r = Run.refused image.length ∧ Image.sizeLimit ≤ image.length ∧
      r.next.item = some (.error (.oversize image.length)) ∧ r.next.run = Run.finished 0) ∨
    (r.next.item = none ∧ r.next.run = Run.finished r.position) := by
  cases h with
  | refused hover => exact Or.inr (Or.inr (Or.inl ⟨rfl, hover, rfl, rfl⟩))
  | finished => exact Or.inr (Or.inr (Or.inr ⟨rfl, rfl⟩))
  | @scanning position hsize hinside =>
    have haddress : position ≤ 65535 := by
      unfold Image.sizeLimit at hsize
      omega
    by_cases hmore : (Cursor.after image position).hasMore = true
    · cases hresult : (Decoder.instruction (.after image position)).result with
      | ok i =>
        obtain ⟨hposition, -, hsizes, hfits, hcursor⟩ :=
          Decoder.instruction_after_ok haddress hresult
        obtain ⟨hitem, hrun⟩ := next_scanning_of_gives hmore ⟨hresult, hcursor⟩
        have htwo := Form.two_le_encodedSize i.opcode
        rw [← hsizes] at htwo
        refine Or.inl ⟨i, hitem, hposition, htwo, ?_, ?_⟩
        · rw [hrun]
          rfl
        · rw [hrun]
          exact .scanning hsize hfits
      | error e =>
        have hstarves := Decoder.starves_of_instruction_error (Nat.lt_succ_of_le haddress) hresult
        have hnext := next_scanning_of_starves hmore hstarves
        rw [Cursor.length_after hinside] at hnext
        exact Or.inr (Or.inl hnext)
    · refine Or.inr (Or.inr (Or.inr ?_))
      simp only [next, if_neg hmore]
      exact ⟨trivial, rfl⟩

theorem Over.of_item_ok {r : Run} {i : Instruction} (h : r.Over image)
    (hitem : r.next.item = some (.ok i)) :
    r.position = i.address.toNat ∧ r.next.run.position = i.address.toNat + i.size ∧
      2 ≤ i.size := by
  rcases h.next_cases with ⟨j, hj, haddress, htwo, hrun, -⟩ | ⟨he, -⟩ | ⟨-, -, he, -⟩ | ⟨hnone, -⟩
  · obtain rfl : j = i := by simpa [hj] using hitem
    rw [hrun, haddress]
    exact ⟨rfl, rfl, htwo⟩
  · simp [he] at hitem
  · simp [he] at hitem
  · simp [hnone] at hitem

theorem Over.of_item_error {r : Run} {e : DecodeError} (h : r.Over image)
    (hitem : r.next.item = some (.error e)) :
    (e = .outOfData image.length image.length ∧ r.next.run = Run.finished image.length) ∨
    (r = Run.refused image.length ∧ Image.sizeLimit ≤ image.length ∧
      e = .oversize image.length ∧ r.next.run = Run.finished 0) := by
  rcases h.next_cases with ⟨j, hj, -⟩ | ⟨he, hrun⟩ | ⟨hrefused, hover, he, hrun⟩ | ⟨hnone, -⟩
  · simp [hj] at hitem
  · exact Or.inl ⟨by simpa [he, eq_comm] using hitem, hrun⟩
  · exact Or.inr ⟨hrefused, hover, by simpa [he, eq_comm] using hitem, hrun⟩
  · simp [hnone] at hitem

theorem Over.of_item_none {r : Run} (h : r.Over image) (hitem : r.next.item = none) :
    r.next.run.position = r.position := by
  rcases h.next_cases with ⟨j, hj, -⟩ | ⟨he, -⟩ | ⟨-, -, he, -⟩ | ⟨-, hrun⟩
  · simp [hj] at hitem
  · simp [he] at hitem
  · simp [he] at hitem
  · rw [hrun]
    rfl

theorem Over.next {r : Run} (h : r.Over image) : r.next.run.Over image := by
  rcases h.next_cases with ⟨_, -, -, -, -, hover⟩ | ⟨-, hrun⟩ | ⟨-, -, -, hrun⟩ | ⟨-, hrun⟩
  · exact hover
  all_goals
    rw [hrun]
    exact .finished

/-- However often it is asked, a run stays a run over its image. -/
theorem over_after (image : Image) (n : Nat) : ((start image).after n).Over image := by
  induction n with
  | zero => exact over_start image
  | succ n ih =>
    rw [after_succ]
    exact ih.next

/-- Only the first request can be refused. -/
theorem next_run_ne_refused (r : Run) (length : Nat) : r.next.run ≠ refused length := by
  cases r with
  | refused _ => simp [Run.next]
  | finished _ => simp [Run.next]
  | scanning cursor =>
    simp only [Run.next]
    split
    · unfold Turn.ofStep
      split <;> simp
    · simp

end Run

/-! ### The instructions before the end -/

/-- Instructions fill the bytes up to a place where no further one begins. -/
theorem exists_fills_starves {position : Nat} {rest : Image}
    (haddresses : position + rest.length < 65536) :
    ∃ (found : Listing) (x y : Image), rest = x ++ y ∧ found.Fills position x ∧
      Decoder.instruction.Starves ⟨position + x.length, y⟩ := by
  -- The induction is on the number of bytes that have not been read.
  induction hlength : rest.length using Nat.strongRecOn generalizing position rest with
  | ind n ih =>
    have hposition : Cursor.position ⟨position, rest⟩ < 65536 :=
      Nat.lt_of_le_of_lt (Nat.le_add_right _ _) haddresses
    rcases Decoder.instruction_cases hposition with
      ⟨i, bytes, rest', heq, haddress, hspelled, -⟩ | ⟨-, hstarves⟩
    · obtain rfl : rest = bytes ++ rest' := heq
      obtain rfl : i.address.toNat = position := haddress
      have htwo := hspelled.two_le_length
      rw [List.length_append] at hlength haddresses
      obtain ⟨found, x, y, rfl, hfound, hstarves⟩ :=
        @ih rest'.length (by omega) (i.address.toNat + bytes.length) rest' (by omega) rfl
      refine ⟨i :: found, bytes ++ x, y, (List.append_assoc ..).symm, .cons hspelled hfound, ?_⟩
      rw [List.length_append, ← Nat.add_assoc]
      exact hstarves
    · exact ⟨[], [], rest, rfl, .nil, hstarves⟩

/-- Where no further instruction begins, no listing that fills a beginning of the bytes
    goes on. -/
theorem Listing.Fills.length_le_of_starves {found other : Listing} {position : Nat}
    {x y z w : Image} (hfound : found.Fills position x)
    (hstarves : Decoder.instruction.Starves ⟨position + x.length, y⟩)
    (hother : other.Fills position z) (heq : x ++ y = z ++ w) : z.length ≤ x.length := by
  rcases List.append_eq_append_iff.mp heq with ⟨extra, rfl, rfl⟩ | ⟨extra, rfl, -⟩
  · -- The other listing goes on with one that fills the extra bytes.
    obtain ⟨tail, -, htail⟩ := hfound.exists_of_append hother
    generalize position + x.length = next at hstarves htail
    cases htail with
    | nil => simp
    | @cons i tail bytes rest hspelled _ =>
      obtain ⟨hgives, -⟩ := Decoder.instruction_gives_of_spelledBy (rest ++ w) hspelled
      rw [← List.append_assoc, hstarves.1] at hgives
      cases hgives
  · simp

theorem Listing.Fills.not_fills_of_starves {found : Listing} {position : Nat} {byte : UInt8}
    {x y : Image} (hfound : found.Fills position x)
    (hstarves : Decoder.instruction.Starves ⟨position + x.length, byte :: y⟩) (other : Listing) :
    ¬ other.Fills position (x ++ byte :: y) := by
  intro hother
  have hle := hfound.length_le_of_starves hstarves hother (List.append_nil _).symm
  rw [List.length_append, List.length_cons] at hle
  omega

/-! ### Answers -/

namespace Run

/-- The run gives these instructions, one at each request, and goes on as another run. -/
inductive Yields : Run → Listing → Run → Prop where
  | refl {r : Run} : Yields r [] r
  | step {r r' : Run} {i : Instruction} {listing : Listing}
      (hitem : r.next.item = some (.ok i)) (hrest : Yields r.next.run listing r') :
      Yields r (i :: listing) r'

theorem next_of_spelledBy {i : Instruction} {bytes : Image} (hspelled : i.SpelledBy bytes)
    (rest : Image) :
    (scanning ⟨i.address.toNat, bytes ++ rest⟩).next.item = some (.ok i) ∧
      (scanning ⟨i.address.toNat, bytes ++ rest⟩).next.run =
        scanning ⟨i.address.toNat + bytes.length, rest⟩ := by
  apply next_scanning_of_gives
  · obtain ⟨low, high, fields, rfl, -⟩ := hspelled.exists_opcode
    rfl
  · exact Decoder.instruction_gives_of_spelledBy rest hspelled

theorem yields_of_fills {listing : Listing} {position : Nat} {bytes : Image}
    (h : listing.Fills position bytes) (rest : Image) :
    (scanning ⟨position, bytes ++ rest⟩).Yields listing
      (scanning ⟨position + bytes.length, rest⟩) := by
  induction h with
  | nil => exact .refl
  | @cons i listing first bytes hspelled _ ih =>
    obtain ⟨hitem, hrun⟩ := next_of_spelledBy hspelled (bytes ++ rest)
    rw [List.append_assoc, List.length_append, ← Nat.add_assoc]
    refine .step hitem ?_
    rw [hrun]
    exact ih

theorem answer_finished (position k : Nat) : (finished position).answer k = none := by
  induction k with
  | zero => rfl
  | succ k ih => exact ih

/-- A run whose next request ends it answers this request and no other. -/
theorem answer_of_next_finished {r : Run} {failure : Option DecodeError} {position : Nat}
    (hitem : r.next.item = failure.map .error) (hrun : r.next.run = finished position) (k : Nat) :
    r.answer k = (failure.toList.map Except.error)[k]? := by
  cases k with
  | zero =>
    change r.next.item = _
    rw [hitem]
    cases failure <;> rfl
  | succ k =>
    change r.next.run.answer k = _
    rw [hrun, answer_finished]
    cases failure <;> rfl

theorem Yields.answer_eq {r r' : Run} {listing : Listing}
    {others : List (Except DecodeError Instruction)} (h : r.Yields listing r')
    (hothers : ∀ k, r'.answer k = others[k]?) (k : Nat) :
    r.answer k = (listing.map Except.ok ++ others)[k]? := by
  induction h generalizing k with
  | refl => exact hothers k
  | step hitem _ ih =>
    cases k with
    | zero => exact hitem
    | succ k => exact ih hothers k

end Run

/-- The longest beginning of the image that has a listing has this one. -/
def Image.LongestListing (image : Image) (listing : Listing) : Prop :=
  ∃ n ≤ image.length, (disassemble (image.take n)).value = .ok listing ∧
    ∀ m ≤ image.length, (∃ other, (disassemble (image.take m)).value = .ok other) → m ≤ n

theorem Listing.Fills.longestListing {found : Listing} {x y : Image}
    (hsize : (x ++ y).length < Image.sizeLimit) (hfound : found.Fills 0 x)
    (hstarves : Decoder.instruction.Starves ⟨0 + x.length, y⟩) :
    Image.LongestListing (x ++ y) found := by
  rw [List.length_append] at hsize
  refine ⟨x.length, by simp, ?_, ?_⟩
  · rw [List.take_left]
    exact disassemble_of_fills (by omega) hfound
  · rintro m hm ⟨other, hvalue⟩
    obtain ⟨-, hother⟩ := disassemble_eq_ok_iff.mp hvalue
    have hle := hfound.length_le_of_starves hstarves hother
      (List.take_append_drop m (x ++ y)).symm
    rwa [List.length_take_of_le hm] at hle

/-- A run gives the instructions that it can and then an error unless they are all.
    Disassembly keeps these instructions or reports this error. -/
theorem exists_answers (image : Image) :
    ∃ (found : Listing) (failure : Option DecodeError),
      (∀ k, (Run.start image).answer k =
        (found.map Except.ok ++ failure.toList.map Except.error)[k]?) ∧
      (disassemble image).value = failure.elim (.ok found) .error ∧
      ∀ offset length, failure = some (.outOfData offset length) → image.LongestListing found := by
  by_cases hover : Image.sizeLimit ≤ image.length
  · refine ⟨[], some (.oversize image.length), ?_, disassemble_of_oversize hover, ?_⟩
    · intro k
      rw [Run.start, if_pos hover]
      exact Run.answer_of_next_finished rfl rfl k
    · rintro _ _ ⟨⟩
  · have hsize := Nat.not_le.mp hover
    have haddresses : 0 + image.length < 65536 := by
      unfold Image.sizeLimit at hsize
      omega
    obtain ⟨found, x, y, rfl, hfound, hstarves⟩ := exists_fills_starves haddresses
    have hyields := Run.yields_of_fills hfound y
    rw [Run.start, if_neg hover]
    rcases y with _ | ⟨byte, y⟩
    · -- Nothing is left, so the next request gives nothing.
      refine ⟨found, none, hyields.answer_eq (Run.answer_of_next_finished rfl rfl), ?_, ?_⟩
      · rw [List.append_nil] at hsize ⊢
        exact disassemble_of_fills hsize hfound
      · rintro _ _ ⟨⟩
    · obtain ⟨hitem, hrun⟩ := Run.next_scanning_of_starves rfl hstarves
      have hlength : Cursor.length ⟨0 + x.length, byte :: y⟩ = (x ++ byte :: y).length := by
        rw [List.length_append, Nat.zero_add]
        rfl
      rw [hlength] at hitem
      refine ⟨found, some (.outOfData (x ++ byte :: y).length (x ++ byte :: y).length),
        hyields.answer_eq (Run.answer_of_next_finished hitem hrun), ?_, ?_⟩
      · exact disassemble_of_not_fills hsize (hfound.not_fills_of_starves hstarves)
      · intro _ _ _
        exact hfound.longestListing hsize hstarves

/-- Every run answers with some instructions, then with at most one error, then with
    nothing for ever. An instruction stands at the position where it was asked for, and
    the position moves to its end, two bytes up or more, where the next instruction
    stands. At the error that the image ends too early the position is the length of the
    image; at the one that the image is too long, which can only be the first answer, it
    is zero; an answer without an item does not move it. Disassembly reports exactly the
    error of the run. Without an error the instructions of the run are the listing, and if
    the image ends too early they are the listing of the longest beginning of the image
    that has one. -/
theorem run_shape (image : Image) :
    let run := Run.start image
    ∃ (found : Listing) (failure : Option DecodeError),
      (∀ k, run.answer k = (found.map Except.ok ++ failure.toList.map Except.error)[k]?) ∧
      (∀ k i, run.answer k = some (.ok i) →
        (run.after k).position = i.address.toNat ∧
        (run.after (k + 1)).position = i.address.toNat + i.size ∧
        (run.after k).position + 2 ≤ (run.after (k + 1)).position ∧
        ∀ j, run.answer (k + 1) = some (.ok j) →
          j.address.toNat = (run.after (k + 1)).position) ∧
      (∀ k offset length, run.answer k = some (.error (.outOfData offset length)) →
        (run.after (k + 1)).position = image.length) ∧
      (∀ k length, run.answer k = some (.error (.oversize length)) →
        k = 0 ∧ 65355 ≤ image.length ∧ (run.after (k + 1)).position = 0) ∧
      (∀ k, run.answer k = none → (run.after (k + 1)).position = (run.after k).position) ∧
      (∀ e, (∃ k, run.answer k = some (.error e)) ↔ (disassemble image).value = .error e) ∧
      (failure = none → (disassemble image).value = .ok found) ∧
      (∀ offset length, failure = some (.outOfData offset length) →
        image.LongestListing found) := by
  intro run
  obtain ⟨found, failure, hanswers, hvalue, hlongest⟩ := exists_answers image
  refine ⟨found, failure, hanswers, ?_, ?_, ?_, ?_, ?_, ?_, hlongest⟩
  · intro k i hi
    obtain ⟨hposition, hnext, htwo⟩ := (Run.over_after image k).of_item_ok hi
    rw [Run.after_succ, hposition, hnext]
    refine ⟨rfl, rfl, Nat.add_le_add_left htwo _, ?_⟩
    intro j hj
    obtain ⟨hposition', -⟩ := (Run.over_after image (k + 1)).of_item_ok hj
    rw [← hposition', Run.after_succ]
    exact hnext
  · intro k offset length hk
    rw [Run.after_succ]
    rcases (Run.over_after image k).of_item_error hk with ⟨-, hrun⟩ | ⟨-, -, he, -⟩
    · rw [hrun]
      rfl
    · cases he
  · intro k length hk
    rw [Run.after_succ]
    rcases (Run.over_after image k).of_item_error hk with ⟨he, -⟩ | ⟨hrefused, hover, -, hrun⟩
    · cases he
    · refine ⟨?_, hover, by rw [hrun]; rfl⟩
      cases k with
      | zero => rfl
      | succ k =>
        rw [Run.after_succ] at hrefused
        exact absurd hrefused (Run.next_run_ne_refused _ _)
  · intro k hk
    rw [Run.after_succ]
    exact (Run.over_after image k).of_item_none hk
  · intro e
    simp only [run, hanswers, ← List.mem_iff_getElem?, hvalue]
    cases failure <;> simp [eq_comm]
  · rintro rfl
    exact hvalue

/-- A run that fails behind its first instruction. -/
theorem run_shape_truncated :
    let image : Image := [0x01, 0x00, 0x00, 0x09, 0x01]
    let run := Run.start image
    run.answer 0 = some (.ok ⟨0, 0x0001, some "ret", []⟩) ∧ (run.after 1).position = 2 ∧
      run.answer 1 = some (.error (.outOfData 5 5)) ∧ (run.after 2).position = 5 ∧
      run.answer 2 = none ∧ (run.after 3).position = 5 ∧
      (disassemble image).value = .error (.outOfData 5 5) := by
  intro image run
  have hfirst : run.answer 0 = some (.ok ⟨0, 0x0001, some "ret", []⟩) := rfl
  have herror : run.answer 1 = some (.error (.outOfData 5 5)) := rfl
  have hnone : run.answer 2 = none := rfl
  obtain ⟨_, _, -, hok, hend, -, hstays, hreports, -⟩ := run_shape image
  have hplace : (run.after 2).position = 5 := hend 1 5 5 herror
  exact ⟨hfirst, (hok 0 _ hfirst).2.1, herror, hplace, hnone, (hstays 2 hnone).trans hplace,
    (hreports _).mp ⟨1, herror⟩⟩

end Disassembly
