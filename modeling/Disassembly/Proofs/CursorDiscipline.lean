import Mathlib.Algebra.GroupWithZero.Nat
import Disassembly.Proofs.InstructionLength

/-!
# Calls on one cursor

A cursor can be asked for a byte, a word or an instruction, in any order and any number of
times, and it goes on from where the last call stopped, whether that call failed or not.

What a single call can do is said once (`Cursor.call_cases`): it gives a value that the
bytes behind the cursor spell and moves behind them, or it runs out of bytes and moves to
the end of the image, or it refuses to name an address that no word can hold and moves
nowhere. All that holds of calls made one after the other follows by induction over them
(`cursor_discipline`). An image may be of any length here.
-/

namespace Disassembly

/-! ### Calls and their answers -/

/-- What can be asked of a cursor. -/
inductive Call where
  | byte
  | word
  | instruction
deriving DecidableEq, Repr

/-- What a call gives when it succeeds. -/
inductive Reading where
  | byte (value : UInt8)
  | word (value : UInt16)
  | instruction (value : Instruction)
deriving DecidableEq, Repr

def Reading.size : Reading → Nat
  | byte _ => 1
  | word _ => 2
  | instruction i => i.size

/-- The call that a value answers. -/
def Reading.call : Reading → Call
  | byte _ => .byte
  | word _ => .word
  | instruction _ => .instruction

def Call.decoder : Call → Decoder Reading
  | byte => do return .byte (← Decoder.byte)
  | word => do return .word (← Decoder.word)
  | instruction => do return .instruction (← Decoder.instruction)

namespace Cursor

def answer (c : Cursor) (call : Call) : Except DecodeError Reading := (call.decoder c).result

def next (c : Cursor) (call : Call) : Cursor := (call.decoder c).cursor

/-- The cursor after these calls. -/
def afterCalls (c : Cursor) (calls : List Call) : Cursor := calls.foldl next c

/-- The answers to these calls, made one after the other. -/
def answers : Cursor → List Call → List (Except DecodeError Reading)
  | _, [] => []
  | c, call :: calls => c.answer call :: answers (c.next call) calls

theorem afterCalls_cons (c : Cursor) (call : Call) (calls : List Call) :
    c.afterCalls (call :: calls) = (c.next call).afterCalls calls :=
  rfl

theorem afterCalls_append (c : Cursor) (calls more : List Call) :
    c.afterCalls (calls ++ more) = (c.afterCalls calls).afterCalls more :=
  List.foldl_append

theorem answers_append (c : Cursor) (calls more : List Call) :
    c.answers (calls ++ more) = c.answers calls ++ (c.afterCalls calls).answers more := by
  induction calls generalizing c with
  | nil => rfl
  | cons call calls ih =>
    rw [List.cons_append, answers, answers, ih, List.cons_append]
    rfl

end Cursor

/-! ### What the bytes say -/

/-- The bytes at a position spell the value that is read there. An instruction also knows
    its position. -/
inductive Reading.StandsAt : Reading → Nat → Image → Prop where
  | byte {position : Nat} {value : UInt8} : StandsAt (.byte value) position [value]
  | word {position : Nat} {low high : UInt8} {value : UInt16}
      (hvalue : LittleEndian low high value) : StandsAt (.word value) position [low, high]
  | instruction {i : Instruction} {bytes : Image} (hspelled : i.SpelledBy bytes) :
      StandsAt (.instruction i) i.address.toNat bytes

/-- The values stand one behind the other from a position on, and the bytes there are
    theirs, up to the last one. -/
inductive ReadInOrder : List Reading → Nat → Image → Prop where
  | nil {position : Nat} : ReadInOrder [] position []
  | cons {reading : Reading} {readings : List Reading} {position : Nat} {bytes rest : Image}
      (hfirst : reading.StandsAt position bytes)
      (hothers : ReadInOrder readings (position + bytes.length) rest) :
      ReadInOrder (reading :: readings) position (bytes ++ rest)

/-- The bytes that a call asks for are there. -/
def Call.Fits (image : Image) (position : Nat) : Call → Prop
  | byte => position + 1 ≤ image.length
  | word => position + 2 ≤ image.length
  | instruction => ∃ opcode, image.wordAt? position = some opcode ∧
      position + (instructionLength opcode).value ≤ image.length

theorem Reading.StandsAt.size_eq {reading : Reading} {position : Nat} {bytes : Image}
    (h : reading.StandsAt position bytes) : reading.size = bytes.length := by
  cases h with
  | byte | word => rfl
  | instruction hspelled => exact hspelled.size_eq

theorem Reading.StandsAt.length_pos {reading : Reading} {position : Nat} {bytes : Image}
    (h : reading.StandsAt position bytes) : 0 < bytes.length := by
  cases h with
  | byte | word => exact Nat.succ_pos _
  | instruction hspelled => exact Nat.lt_of_lt_of_le Nat.two_pos hspelled.two_le_length

theorem ReadInOrder.size_eq {readings : List Reading} {position : Nat} {bytes : Image}
    (h : ReadInOrder readings position bytes) :
    (readings.map Reading.size).sum = bytes.length := by
  induction h with
  | nil => rfl
  | cons hfirst _ ih =>
    rw [List.map_cons, List.sum_cons, hfirst.size_eq, ih, List.length_append]

/-! ### One call -/

/-- An instruction is only looked for where it can have an address. -/
def Call.Addressable (position : Nat) (call : Call) : Prop :=
  call = .instruction → position ≤ 65535

/-- The call takes these bytes, which come next, gives the value of its kind that they
    spell, and moves behind them. -/
structure Call.Takes (image : Image) (position : Nat) (call : Call) (reading : Reading)
    (bytes rest : Image) : Prop where
  drop_eq : image.drop position = bytes ++ rest
  call_eq : reading.call = call
  standsAt : reading.StandsAt position bytes
  answer_eq : (Cursor.after image position).answer call = .ok reading
  next_eq : (Cursor.after image position).next call = .after image (position + bytes.length)

def Call.Succeeds (image : Image) (position : Nat) (call : Call) : Prop :=
  ∃ (reading : Reading) (bytes rest : Image), call.Takes image position reading bytes rest

theorem Cursor.after_of_drop {image bytes rest : Image} {position : Nat}
    (hdrop : image.drop position = bytes ++ rest) :
    Cursor.after image (position + bytes.length) = ⟨position + bytes.length, rest⟩ := by
  rw [Cursor.after, ← List.drop_drop, hdrop, List.drop_left]

theorem Cursor.length_of_drop {image bytes rest : Image} {position : Nat}
    (hinside : position ≤ image.length) (hdrop : image.drop position = bytes ++ rest) :
    position + bytes.length ≤ image.length := by
  have hlength := congrArg List.length hdrop
  rw [List.length_drop, List.length_append] at hlength
  omega

section Calls

variable {image : Image} {position : Nat}

/-- A call for a fixed number of bytes. -/
theorem Call.cases_of_reads {width : Nat} (call : Call) {spells : Image → Reading → Prop}
    (hreads : Decoder.Reads width spells call.decoder)
    (hspells : ∀ bytes reading, spells bytes reading →
      reading.call = call ∧ reading.StandsAt position bytes)
    (hinside : position ≤ image.length) :
    (position + width ≤ image.length ∧ call.Succeeds image position) ∨
    (¬ position + width ≤ image.length ∧ call.decoder.Starves (.after image position)) := by
  rcases hreads.cases (.after image position) with
    ⟨reading, bytes, rest, hdrop, hlength, hreading, hgives⟩ | ⟨hshort, hstarves⟩
  · have hend := Cursor.length_of_drop hinside hdrop
    rw [hlength] at hend
    obtain ⟨hcall, hstands⟩ := hspells bytes reading hreading
    have hnext : (Cursor.after image position).next call =
        .after image (position + bytes.length) := by
      rw [Cursor.after_of_drop hdrop, hlength]
      exact hgives.2
    exact Or.inl ⟨hend, reading, bytes, rest, hdrop, hcall, hstands, hgives.1, hnext⟩
  · have hrest : (Cursor.after image position).rest.length = image.length - position :=
      List.length_drop
    exact Or.inr ⟨by omega, hstarves⟩

theorem Call.byte_cases (hinside : position ≤ image.length) :
    (byte.Fits image position ∧ byte.Succeeds image position) ∨
    (¬ byte.Fits image position ∧ byte.decoder.Starves (.after image position)) := by
  have hreads := Decoder.reads_byte.bind fun b => Decoder.reads_pure (Reading.byte b)
  refine Call.cases_of_reads byte hreads ?_ hinside
  rintro _ _ ⟨_, b, _, rfl, rfl, rfl, rfl⟩
  exact ⟨rfl, .byte⟩

theorem Call.word_cases (hinside : position ≤ image.length) :
    (word.Fits image position ∧ word.Succeeds image position) ∨
    (¬ word.Fits image position ∧ word.decoder.Starves (.after image position)) := by
  have hreads := Decoder.reads_word.bind fun w => Decoder.reads_pure (Reading.word w)
  refine Call.cases_of_reads word hreads ?_ hinside
  rintro _ _ ⟨_, w, _, rfl, ⟨low, high, rfl, hword⟩, rfl, rfl⟩
  exact ⟨rfl, .word hword⟩

theorem Call.instruction_cases (hinside : position ≤ image.length) (haddress : position ≤ 65535) :
    (instruction.Fits image position ∧ instruction.Succeeds image position) ∨
    (¬ instruction.Fits image position ∧
      instruction.decoder.Starves (.after image position)) := by
  rcases Decoder.instruction_cases (c := .after image position) (Nat.lt_succ_of_le haddress) with
    ⟨i, bytes, rest, hdrop, hposition, hspelled, hgives⟩ | ⟨hshort, hstarves⟩
  · have hreading : instruction.decoder.Gives (.after image position) (.instruction i)
        (.after image (position + bytes.length)) := by
      rw [Cursor.after_of_drop hdrop]
      exact hgives.bind ⟨rfl, rfl⟩
    refine Or.inl ⟨⟨i.opcode, hspelled.wordAt?_eq hdrop, ?_⟩, .instruction i, bytes, rest,
      hdrop, rfl, ?_, hreading.1, hreading.2⟩
    · rw [instructionLength_value, ← hspelled.length_eq]
      exact Cursor.length_of_drop hinside hdrop
    · rw [show position = i.address.toNat from hposition.symm]
      exact .instruction hspelled
  · refine Or.inr ⟨?_, hstarves.bind⟩
    rintro ⟨opcode, hopcode, hfits⟩
    rw [instructionLength_value] at hfits
    obtain ⟨i, hok⟩ := (Decoder.exists_instruction_after_iff haddress hopcode).mpr hfits
    rw [hstarves.1] at hok
    cases hok

/-- Beyond the last address no instruction is looked for. -/
theorem Decoder.instruction_of_far {c : Cursor} (hfar : 65535 < c.position) :
    instruction c = ⟨.error (.oversize c.length), c, []⟩ := by
  have haddress : address c = ⟨.error (.oversize c.length), c, []⟩ := if_neg (by omega)
  change Decoder.bind address _ c = _
  simp only [Decoder.bind, haddress]

/-- The three things that a call can do. -/
theorem Cursor.call_cases (call : Call) (hinside : position ≤ image.length) :
    (call.Addressable position ∧ call.Fits image position ∧ call.Succeeds image position) ∨
    (call.Addressable position ∧ ¬ call.Fits image position ∧
      (after image position).answer call = .error (.outOfData image.length image.length) ∧
      (after image position).next call = after image image.length) ∨
    (call = .instruction ∧ 65535 < position ∧
      (after image position).answer call = .error (.oversize image.length) ∧
      (after image position).next call = after image position) := by
  -- With an address, a call succeeds or starves, and both are known kind by kind.
  have hcases : call.Addressable position →
      (call.Fits image position ∧ call.Succeeds image position) ∨
      (¬ call.Fits image position ∧ call.decoder.Starves (.after image position)) := by
    intro haddress
    cases call with
    | byte => exact Call.byte_cases hinside
    | word => exact Call.word_cases hinside
    | instruction => exact Call.instruction_cases hinside (haddress rfl)
  by_cases haddress : call.Addressable position
  · rcases hcases haddress with ⟨hfits, hsucceeds⟩ | ⟨hshort, hresult, hcursor⟩
    · exact Or.inl ⟨haddress, hfits, hsucceeds⟩
    · rw [length_after hinside] at hresult hcursor
      refine Or.inr (Or.inl ⟨haddress, hshort, hresult, hcursor.trans ?_⟩)
      rw [after, List.drop_length]
  · obtain ⟨rfl, hfar⟩ := Classical.not_imp.mp haddress
    have hstep : Call.instruction.decoder (after image position) =
        ⟨.error (.oversize image.length), after image position, []⟩ := by
      change Decoder.bind Decoder.instruction _ _ = _
      simp only [Decoder.bind, Decoder.instruction_of_far (c := after image position)
        (Nat.lt_of_not_le hfar), length_after hinside]
    refine Or.inr (Or.inr ⟨rfl, Nat.lt_of_not_le hfar, ?_, ?_⟩)
    · rw [answer, hstep]
    · rw [next, hstep]

theorem Cursor.answer_ok_iff {call : Call} (hinside : position ≤ image.length) :
    (∃ reading, (after image position).answer call = .ok reading) ↔
      call.Addressable position ∧ call.Fits image position := by
  rcases call_cases call hinside with
    ⟨haddress, hfits, reading, _, _, htakes⟩ | ⟨-, hshort, hanswer, -⟩ | ⟨rfl, hfar, hanswer, -⟩
  · exact iff_of_true ⟨reading, htakes.answer_eq⟩ ⟨haddress, hfits⟩
  · rw [hanswer]
    exact iff_of_false nofun fun h => hshort h.2
  · rw [hanswer]
    exact iff_of_false nofun fun h => absurd (h.1 rfl) (Nat.not_le.mpr hfar)

/-- Bytes are only missing at the end of the image, and the cursor has moved there. -/
theorem Cursor.of_answer_outOfData {call : Call} {offset length : Nat}
    (hinside : position ≤ image.length)
    (h : (after image position).answer call = .error (.outOfData offset length)) :
    offset = image.length ∧ length = image.length ∧
      (after image position).next call = after image image.length := by
  rcases call_cases call hinside with
    ⟨-, -, _, _, _, htakes⟩ | ⟨-, -, hanswer, hnext⟩ | ⟨-, -, hanswer, -⟩
  · cases htakes.answer_eq.symm.trans h
  · cases hanswer.symm.trans h
    exact ⟨rfl, rfl, hnext⟩
  · cases hanswer.symm.trans h

theorem Cursor.answer_oversize_iff {call : Call} {length : Nat}
    (hinside : position ≤ image.length) :
    (after image position).answer call = .error (.oversize length) ↔
      call = .instruction ∧ 65535 < position ∧ length = image.length := by
  rcases call_cases call hinside with
    ⟨haddress, -, _, _, _, htakes⟩ | ⟨haddress, -, hanswer, -⟩ | ⟨hcall, hfar, hanswer, -⟩
  · rw [htakes.answer_eq]
    exact iff_of_false nofun fun h => absurd (haddress h.1) (Nat.not_le.mpr h.2.1)
  · rw [hanswer]
    exact iff_of_false nofun fun h => absurd (haddress h.1) (Nat.not_le.mpr h.2.1)
  · rw [hanswer]
    constructor
    · rintro ⟨⟩
      exact ⟨hcall, hfar, rfl⟩
    · rintro ⟨-, -, rfl⟩
      rfl

theorem Cursor.next_instruction_of_far (hinside : position ≤ image.length)
    (hfar : 65535 < position) :
    (after image position).next .instruction = after image position := by
  rcases call_cases .instruction hinside with ⟨haddress, -⟩ | ⟨haddress, -⟩ | ⟨-, -, -, hnext⟩
  · exact absurd (haddress rfl) (Nat.not_le.mpr hfar)
  · exact absurd (haddress rfl) (Nat.not_le.mpr hfar)
  · exact hnext

/-! ### Calls in a row -/

theorem Cursor.exists_next_after (call : Call) (hinside : position ≤ image.length) :
    ∃ later, position ≤ later ∧ later ≤ image.length ∧
      (after image position).next call = after image later := by
  rcases call_cases call hinside with
    ⟨-, -, _, _, _, htakes⟩ | ⟨-, -, -, hnext⟩ | ⟨-, -, -, hnext⟩
  · exact ⟨_, Nat.le_add_right _ _, length_of_drop hinside htakes.drop_eq, htakes.next_eq⟩
  · exact ⟨_, hinside, Nat.le_refl _, hnext⟩
  · exact ⟨_, Nat.le_refl _, hinside, hnext⟩

/-- Calls never move a cursor back, and never out of its image. -/
theorem Cursor.exists_afterCalls (calls : List Call) (hinside : position ≤ image.length) :
    ∃ later, position ≤ later ∧ later ≤ image.length ∧
      (after image position).afterCalls calls = after image later := by
  induction calls generalizing position with
  | nil => exact ⟨position, Nat.le_refl _, hinside, rfl⟩
  | cons call calls ih =>
    obtain ⟨middle, hfirst, hmiddle, hnext⟩ := exists_next_after call hinside
    obtain ⟨later, hothers, hlater, hafter⟩ := ih hmiddle
    refine ⟨later, Nat.le_trans hfirst hothers, hlater, ?_⟩
    rw [afterCalls_cons, hnext]
    exact hafter

/-- Calls that all succeed read the bytes behind the cursor in order, and move behind what
    they have read. -/
theorem Cursor.readInOrder_of_answers {calls : List Call} {readings : List Reading}
    (hinside : position ≤ image.length)
    (h : (after image position).answers calls = readings.map Except.ok) :
    ∃ bytes rest, image.drop position = bytes ++ rest ∧ readings.map Reading.call = calls ∧
      ReadInOrder readings position bytes ∧
      (after image position).afterCalls calls = after image (position + bytes.length) := by
  induction calls generalizing position readings with
  | nil =>
    obtain rfl := List.map_eq_nil_iff.mp h.symm
    exact ⟨[], _, rfl, rfl, .nil, rfl⟩
  | cons call calls ih =>
    obtain ⟨first, others, rfl, hfirst, hothers⟩ := List.map_eq_cons_iff.mp h.symm
    rcases call_cases call hinside with
      ⟨-, -, reading, bytes, rest, htakes⟩ | ⟨-, -, hanswer, -⟩ | ⟨-, -, hanswer, -⟩
    · rw [htakes.answer_eq] at hfirst
      cases hfirst
      rw [htakes.next_eq] at hothers
      obtain ⟨bytes', rest', hdrop', hcalls, hreadings, hafter⟩ :=
        ih (length_of_drop hinside htakes.drop_eq) hothers.symm
      have hrest : rest = bytes' ++ rest' := by
        rw [← hdrop', ← List.drop_drop, htakes.drop_eq, List.drop_left]
      refine ⟨bytes ++ bytes', rest', ?_, ?_, .cons htakes.standsAt hreadings, ?_⟩
      · rw [htakes.drop_eq, hrest, List.append_assoc]
      · rw [List.map_cons, htakes.call_eq, hcalls]
      · rw [afterCalls_cons, htakes.next_eq, List.length_append, ← Nat.add_assoc]
        exact hafter
    · rw [hanswer] at hfirst
      cases hfirst
    · rw [hanswer] at hfirst
      cases hfirst

/-- At the end of the image nothing is read any more. -/
theorem Cursor.call_at_end (image : Image) (call : Call) :
    (after image image.length).next call = after image image.length ∧
    (call.Addressable image.length →
      (after image image.length).answer call =
        .error (.outOfData image.length image.length)) := by
  rcases call_cases call (Nat.le_refl image.length) with
    ⟨-, -, _, _, _, htakes⟩ | ⟨-, -, hanswer, hnext⟩ | ⟨rfl, hfar, -, hnext⟩
  · have hpos := htakes.standsAt.length_pos
    have hend := length_of_drop (Nat.le_refl _) htakes.drop_eq
    omega
  · exact ⟨hnext, fun _ => hanswer⟩
  · exact ⟨hnext, fun haddress => absurd (haddress rfl) (Nat.not_le.mpr hfar)⟩

theorem Cursor.afterCalls_at_end (image : Image) (calls : List Call) :
    (after image image.length).afterCalls calls = after image image.length := by
  induction calls with
  | nil => rfl
  | cons call calls ih =>
    rw [afterCalls_cons, (call_at_end image call).1]
    exact ih

end Calls

/-- Any number of calls on one cursor, of any kinds and in any order, on an image of any
    length. The position never decreases and never leaves the image. While every call
    succeeds, the position is the sum of the sizes read, and the values are those of the
    bytes in front of it, each byte used once and in order.

    A call succeeds exactly when the bytes it asks for are there and, for an instruction,
    the position is an address. Running out of bytes is always found at the end of the
    image; the cursor then stays there, and every read fails with the same error. Only an
    instruction beyond the last address is too far, and looking for one there changes
    neither the cursor nor any later answer. -/
theorem cursor_discipline (image : Image) (calls : List Call) :
    let c := (Cursor.start image).afterCalls calls
    (∀ more, c.position ≤ ((Cursor.start image).afterCalls (calls ++ more)).position) ∧
    c.position ≤ image.length ∧
    (∀ readings, (Cursor.start image).answers calls = readings.map Except.ok →
      readings.map Reading.call = calls ∧ c.position = (readings.map Reading.size).sum ∧
      ReadInOrder readings 0 (image.take c.position)) ∧
    (∀ call, (∃ reading, c.answer call = .ok reading) ↔
      call.Addressable c.position ∧ call.Fits image c.position) ∧
    (∀ call offset length, c.answer call = .error (.outOfData offset length) →
      offset = image.length ∧ length = image.length ∧
      ∀ more, let later := c.afterCalls (call :: more)
        later.position = image.length ∧
        ∀ read : Call, read.Addressable image.length →
          later.answer read = .error (.outOfData offset length)) ∧
    (∀ call length, c.answer call = .error (.oversize length) ↔
      call = .instruction ∧ 65535 < c.position ∧ length = image.length) ∧
    (65535 < c.position → c.next .instruction = c ∧
      ∀ more, (Cursor.start image).answers (calls ++ .instruction :: more) =
        (Cursor.start image).answers calls ++ .error (.oversize image.length) ::
          c.answers more) := by
  intro c
  obtain ⟨position, -, hinside, hc⟩ :=
    Cursor.exists_afterCalls calls (Nat.zero_le image.length)
  replace hc : c = .after image position := hc
  refine ⟨?_, ?_, ?_, ?_, ?_, ?_, ?_⟩
  · intro more
    obtain ⟨later, hle, -, hlater⟩ := Cursor.exists_afterCalls more hinside
    rw [Cursor.afterCalls_append, show (Cursor.start image).afterCalls calls = c from rfl, hc,
      hlater]
    exact hle
  · rw [hc]
    exact hinside
  · intro readings h
    obtain ⟨bytes, rest, hdrop, hcalls, hreadings, hafter⟩ :=
      Cursor.readInOrder_of_answers (Nat.zero_le image.length) h
    have hposition : c.position = bytes.length := by
      rw [show c = _ from hafter, Nat.zero_add]
      rfl
    rw [hposition, hreadings.size_eq, show image = bytes ++ rest from hdrop, List.take_left]
    exact ⟨hcalls, rfl, hreadings⟩
  · intro call
    rw [hc]
    exact Cursor.answer_ok_iff hinside
  · intro call offset length h
    rw [hc] at h ⊢
    obtain ⟨rfl, rfl, hnext⟩ := Cursor.of_answer_outOfData hinside h
    refine ⟨rfl, rfl, ?_⟩
    intro more later
    have hlater : later = .after image image.length := by
      change (Cursor.after image position).afterCalls (call :: more) = _
      rw [Cursor.afterCalls_cons, hnext]
      exact Cursor.afterCalls_at_end image more
    rw [hlater]
    exact ⟨rfl, fun read => (Cursor.call_at_end image read).2⟩
  · intro call length
    rw [hc]
    exact Cursor.answer_oversize_iff hinside
  · intro hfar
    rw [hc] at hfar
    have hnext : c.next .instruction = c := by
      rw [hc]
      exact Cursor.next_instruction_of_far hinside hfar
    have hanswer : c.answer .instruction = .error (.oversize image.length) := by
      rw [hc]
      exact (Cursor.answer_oversize_iff hinside).mpr ⟨rfl, hfar, rfl⟩
    refine ⟨hnext, ?_⟩
    intro more
    rw [Cursor.answers_append, show (Cursor.start image).afterCalls calls = c from rfl,
      Cursor.answers, hanswer, hnext]

theorem Cursor.afterCalls_replicate_byte (image : Image) {n : Nat} (h : n ≤ image.length) :
    (start image).afterCalls (List.replicate n .byte) = after image n := by
  induction n with
  | zero => rfl
  | succ n ih =>
    rw [List.replicate_succ', afterCalls_append, ih (Nat.le_of_succ_le h), afterCalls_cons, next,
      after, List.drop_eq_getElem_cons h]
    rfl

/-- A word, a byte and an instruction are read, and there is half a word left. In a longer
    image an instruction is looked for beyond the last address, and then a byte is read. -/
theorem cursor_discipline_mixed_calls :
    let image : Image := [0x34, 0x12, 0xFF, 0x01, 0x00, 0x07]
    let calls : List Call := [.word, .byte, .instruction]
    let readings : List Reading :=
      [.word 0x1234, .byte 0xFF, .instruction ⟨3, 0x0001, some "ret", []⟩]
    let c := (Cursor.start image).afterCalls calls
    let far := (Cursor.start (List.replicate 65537 0)).afterCalls (List.replicate 65536 .byte)
    (Cursor.start image).answers calls = readings.map Except.ok ∧
      ReadInOrder readings 0 [0x34, 0x12, 0xFF, 0x01, 0x00] ∧
      c.answer .word = .error (.outOfData 6 6) ∧
      (∀ more, (c.afterCalls (.word :: more)).answer .byte = .error (.outOfData 6 6)) ∧
      65535 < far.position ∧ far.answer .instruction = .error (.oversize 65537) ∧
      far.next .instruction = far ∧ ∃ reading, far.answer .byte = .ok reading := by
  intro image calls readings c far
  obtain ⟨-, -, hreadings, -, hmissing, -, -⟩ := cursor_discipline image calls
  have hanswers : (Cursor.start image).answers calls = readings.map Except.ok := by rfl
  have hanswer : c.answer .word = .error (.outOfData 6 6) := by rfl
  have hlength : (List.replicate 65537 (0 : UInt8)).length = 65537 := List.length_replicate
  have hposition : far.position = 65536 := by
    rw [show far = _ from Cursor.afterCalls_replicate_byte _ (by rw [hlength]; decide)]
    rfl
  have hbeyond : 65535 < far.position := by rw [hposition]; decide
  obtain ⟨-, -, -, hok, -, hoversize, hfar⟩ :=
    cursor_discipline (List.replicate 65537 0) (List.replicate 65536 .byte)
  refine ⟨hanswers, (hreadings readings hanswers).2.2, hanswer, ?_, hbeyond, ?_, ?_, ?_⟩
  · intro more
    exact ((hmissing .word 6 6 hanswer).2.2 more).2 .byte nofun
  · exact (hoversize .instruction 65537).mpr ⟨rfl, hbeyond, hlength.symm⟩
  · exact (hfar hbeyond).1
  · refine (hok .byte).mpr ⟨nofun, ?_⟩
    have hlast : far.position + 1 = (List.replicate 65537 (0 : UInt8)).length := by
      rw [hposition, hlength]
    exact Nat.le_of_eq hlast

end Disassembly
