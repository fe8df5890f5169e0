import Disassembly.Image.Decoder.Instruction

/-!
# Runs

A run goes through an image one instruction at a time. It ends at the end of the
image or at the first error, and once it has ended it stays ended.
-/

namespace Disassembly

inductive Run where
  /-- Nothing has been read and nothing will be: the image is too long. -/
  | refused (length : Nat)
  /-- The next instruction is wanted at the cursor. -/
  | scanning (cursor : Cursor)
  /-- There is nothing more to come; reading stopped at this position. -/
  | finished (position : Nat)
deriving DecidableEq, Repr

/-- The answer to a request for the next instruction. -/
structure Turn where
  /-- The instruction or the error that ended the run; nothing after the end. -/
  item : Option (Except DecodeError Instruction)
  run : Run
  notices : List Notice

/-- A decoded instruction keeps the run going and an error ends it. -/
def Turn.ofStep (step : Step Instruction) : Turn :=
  match step.result with
  | .ok i => ⟨some (.ok i), .scanning step.cursor, step.notices⟩
  | .error e => ⟨some (.error e), .finished step.cursor.position, step.notices⟩

namespace Run

def start (image : Image) : Run :=
  if Image.sizeLimit ≤ image.length then refused image.length
  else scanning (.start image)

/-- How far the run has read. -/
def position : Run → Nat
  | refused _ => 0
  | scanning cursor => cursor.position
  | finished position => position

def next : Run → Turn
  | refused length => ⟨some (.error (.oversize length)), finished 0, [.refused length]⟩
  | scanning cursor =>
      if cursor.hasMore then .ofStep (Decoder.instruction cursor)
      else ⟨none, finished cursor.position, []⟩
  | finished position => ⟨none, finished position, []⟩

/-- The number of bytes that a run may still read. -/
def remaining : Run → Nat
  | scanning cursor => cursor.rest.length
  | refused _ | finished _ => 0

/-- Every instruction that a run gives brings it closer to its end. -/
theorem remaining_next_lt {r : Run} {i : Instruction} (h : r.next.item = some (.ok i)) :
    r.next.run.remaining < r.remaining := by
  cases r with
  | refused length => simp [next] at h
  | finished position => simp [next] at h
  | scanning cursor =>
    by_cases more : cursor.hasMore
    · simp only [next, more, ite_true, Turn.ofStep] at h ⊢
      cases hstep : (Decoder.instruction cursor).result with
      | error e => simp [hstep] at h
      | ok j =>
        have := Decoder.advances_instruction cursor j hstep
        simp only [remaining]
        omega
    · simp [next, more] at h

/-- All instructions of a run, added to those in `found`; or the error that
    ended it. Notices are added likewise. -/
def collect (r : Run) (found : Array Instruction) (notices : Array Notice) :
    Noted (Except DecodeError (List Instruction)) :=
  let turn := r.next
  let notices := notices ++ turn.notices
  match h : turn.item with
  | none => ⟨.ok found.toList, notices.toList⟩
  | some (.error e) => ⟨.error e, notices.toList⟩
  | some (.ok i) =>
      have := remaining_next_lt h
      collect turn.run (found.push i) notices
termination_by r.remaining

end Run

end Disassembly
