import Disassembly.Proofs.Losslessness
import Disassembly.Proofs.PresentationProtocol
import Disassembly.Proofs.RunShape

/-!
# Operations that are not defined everywhere

On the way from an image to its listing there are operations that only some values allow.
A position has an address only up to the last word, and the byte in front of it exists
only if it is not the first. The mnemonics of some opcodes are kept in lists and found by
their place in them. The digits of a literal are counted with a byte.

A guarded decoder takes no step at all where such an operation is not defined. Guarded
decoders take the steps of the plain ones at every cursor that has an address
(`Guarded.agrees_instruction`), and a run over an image never leaves these cursors
(`Run.Over.guardedNext_eq`). So no request ever fails for want of a value, and an image is
only found to be too long before anything of it is read (`partial_operations_defined`).
-/

namespace Disassembly

/-! ### The operations -/

/-- The address of a position. -/
def addressOf? (position : Nat) : Option UInt16 :=
  if position < 65536 then some position.toUInt16 else none

/-- The position of the byte in front of another position. -/
def positionBefore? (position : Nat) : Option Nat :=
  if 1 ≤ position then some (position - 1) else none

/-- Two digits for each byte. -/
def digitsOf? (width : UInt8) : Option UInt8 :=
  if 2 * width.toNat < 256 then some (2 * width) else none

/-- Opcodes from `first` to `last` without operands, whose mnemonics are in a list. -/
structure MnemonicRange where
  first : UInt16
  last : UInt16
  mnemonics : List String
deriving DecidableEq, Repr

namespace MnemonicRange

def all : List MnemonicRange :=
  [ ⟨0x0A00, 0x0A06, ["inc", "dec", "add", "sub", "div", "mul", "mod"]⟩,
    ⟨0x0AA0, 0x0AA3, ["and", "or", "xor", "not"]⟩,
    ⟨0x0AB0, 0x0AB1, ["lsr", "rsr"]⟩,
    ⟨0x0AC0, 0x0AC1, ["cmp", "ncmp"]⟩,
    ⟨0x0AD0, 0x0AD5, ["equ", "neq", "lwr", "lwr_equ", "grt", "grt_equ"]⟩ ]

def Holds (range : MnemonicRange) (opcode : UInt16) : Prop :=
  range.first ≤ opcode ∧ opcode ≤ range.last

instance (range : MnemonicRange) (opcode : UInt16) : Decidable (range.Holds opcode) :=
  inferInstanceAs (Decidable (range.first ≤ opcode ∧ opcode ≤ range.last))

/-- The mnemonic at the place of the opcode. The list may end before it. -/
def mnemonic? (range : MnemonicRange) (opcode : UInt16) : Option String :=
  if range.first ≤ opcode then range.mnemonics[opcode.toNat - range.first.toNat]? else none

end MnemonicRange

/-- The form of an opcode, where the ranges are looked at before all else. The outer option
    is for places that are not in their list, the inner one for opcodes without a form. -/
def Form.byRange? (opcode : UInt16) : Option (Option Form) :=
  match MnemonicRange.all.find? fun range => decide (range.Holds opcode) with
  | some range => (range.mnemonic? opcode).map fun mnemonic => some ⟨mnemonic, []⟩
  | none => some (Form.ofOpcode? opcode)

/-! ### Guarded decoders -/

/-- A way to read a value at a cursor with operations that may not be defined. -/
def Guarded (α : Type) : Type := Cursor → Option (Step α)

namespace Guarded

variable {α β : Type}

protected def pure (a : α) : Guarded α := fun c => some ⟨.ok a, c, []⟩

protected def bind (g : Guarded α) (f : α → Guarded β) : Guarded β := fun c =>
  match g c with
  | none => none
  | some first =>
      match first.result with
      | .ok a => (f a first.cursor).map fun second =>
          ⟨second.result, second.cursor, first.notices ++ second.notices⟩
      | .error e => some ⟨.error e, first.cursor, first.notices⟩

instance : Monad Guarded where
  pure := Guarded.pure
  bind := Guarded.bind

/-- A decoder whose operations are all defined. -/
def ofDecoder (d : Decoder α) : Guarded α := fun c => some (d c)

/-- The value of an operation, which has to be there. -/
def require (value : Option α) : Guarded α := fun c => value.map fun a => ⟨.ok a, c, []⟩

def address : Guarded UInt16 := do
  let position ← ofDecoder Decoder.position
  require (addressOf? position)

end Guarded

/-- The notices about an operand that ends at `finish`. -/
def Operand.noticesBefore? (finish : Nat) : Operand → Option (List Notice)
  | dataType (.unknown byte) =>
      (positionBefore? finish).map fun position => [.unknownType byte position]
  | offset expr => some (expr.lhs.notices ++ expr.rhs.notices)
  | _ => some []

namespace Guarded

/-- One operand. The notices about it are made from the position behind it. -/
def operand (kind : OperandKind) : Guarded Operand := do
  let operand ← ofDecoder (Decoder.field kind)
  let finish ← ofDecoder Decoder.position
  let notices ← require (operand.noticesBefore? finish)
  ofDecoder (Decoder.notify notices)
  return operand

def operands : List OperandKind → Guarded (List Operand)
  | [] => return []
  | kind :: kinds => do
      let first ← operand kind
      let others ← operands kinds
      return first :: others

def instruction : Guarded Instruction := do
  let address ← address
  let opcode ← ofDecoder Decoder.word
  let form ← require (Form.byRange? opcode)
  let operands ← operands (form.elim [] Form.kinds)
  let decoded : Instruction := ⟨address, opcode, form.map Form.mnemonic, operands⟩
  ofDecoder (Decoder.notify [decoded.notice])
  return decoded

end Guarded

/-- The answer to a request for the next instruction, with all operations guarded. -/
def Run.guardedNext : Run → Option Turn
  | refused length => some (refused length).next
  | scanning cursor =>
      if cursor.hasMore then (Guarded.instruction cursor).map Turn.ofStep
      else some ⟨none, finished cursor.position, []⟩
  | finished position => some (finished position).next

/-! ### Guarded lines -/

def Operand.tokens? : Operand → Option (List Token)
  | literal value width => (digitsOf? width).map fun digits => [.hex value digits]
  | operand => some operand.tokens

def Instruction.line? (i : Instruction) : Option (List Token) := do
  let operands ← i.operands.mapM Operand.tokens?
  return [.word i.address, .word i.opcode] ++ i.head :: List.intercalate [.comma] operands ++
    [.lineBreak]

def Listing.tokens? (listing : Listing) : Option (List Token) := do
  let lines ← listing.mapM Instruction.line?
  return lines.flatten

/-! ### Mnemonics by place -/

namespace MnemonicRange

/-- No list is too short for its range. -/
theorem index_lt {range : MnemonicRange} {opcode : UInt16} (hmem : range ∈ all)
    (h : range.Holds opcode) :
    opcode.toNat - range.first.toNat < range.mnemonics.length := by
  have hlength : ∀ range ∈ all, range.last.toNat < range.first.toNat + range.mnemonics.length := by
    decide
  have hlast : opcode.toNat ≤ range.last.toNat := h.2
  have hfirst : range.first.toNat ≤ opcode.toNat := h.1
  have := hlength range hmem
  omega

/-- The place of an opcode in its list is its place in its family. -/
theorem map_mnemonic?_eq {range : MnemonicRange} {opcode : UInt16} (hmem : range ∈ all)
    (h : range.Holds opcode) :
    ((range.mnemonic? opcode).map fun mnemonic => some ⟨mnemonic, []⟩) =
      some (Form.ofOpcode? opcode) := by
  have hforms : ∀ range ∈ all, ((List.range range.mnemonics.length).all fun k =>
      ((range.mnemonic? (range.first + k.toUInt16)).map fun mnemonic => some ⟨mnemonic, []⟩) ==
        some (Form.ofOpcode? (range.first + k.toUInt16))) = true := by
    decide
  have hplace := List.all_eq_true.mp (hforms range hmem) _ (List.mem_range.mpr (index_lt hmem h))
  have hopcode : range.first + (opcode.toNat - range.first.toNat).toUInt16 = opcode := by
    have hfirst : range.first.toNat ≤ opcode.toNat := h.1
    have hlt := opcode.toNat_lt
    apply UInt16.toNat_inj.mp
    simp only [UInt16.toNat_add, Nat.toUInt16, UInt16.toNat_ofNat']
    omega
  rw [hopcode] at hplace
  exact beq_iff_eq.mp hplace

end MnemonicRange

theorem Form.byRange?_eq (opcode : UInt16) : byRange? opcode = some (ofOpcode? opcode) := by
  unfold byRange?
  split
  · rename_i range hfind
    have hholds := List.find?_some hfind
    exact MnemonicRange.map_mnemonic?_eq (List.mem_of_find?_eq_some hfind)
      (of_decide_eq_true hholds)
  · rfl

/-! ### Steps of guarded decoders -/

namespace Guarded

variable {α β : Type}

/-- At this cursor all operations are defined, and the step is that of the decoder. -/
def Agrees (g : Guarded α) (d : Decoder α) (c : Cursor) : Prop := g c = some (d c)

theorem agrees_ofDecoder (d : Decoder α) (c : Cursor) : (ofDecoder d).Agrees d c := rfl

theorem agrees_pure (a : α) (c : Cursor) : Agrees (pure a) (pure a) c := rfl

theorem Agrees.bind {g : Guarded α} {d : Decoder α} {f : α → Guarded β} {f' : α → Decoder β}
    {c : Cursor} (hfirst : g.Agrees d c)
    (hrest : ∀ a, (d c).result = .ok a → (f a).Agrees (f' a) (d c).cursor) :
    (g >>= f).Agrees (d >>= f') c := by
  change Guarded.bind g f c = some (Decoder.bind d f' c)
  unfold Guarded.bind Decoder.bind
  rw [show g c = some (d c) from hfirst]
  cases hresult : (d c).result with
  | error e => simp only [hresult]
  | ok a =>
    simp only [hresult, show f a (d c).cursor = some (f' a (d c).cursor) from hrest a hresult,
      Option.map_some]

/-- An operation that is defined takes no step of its own. -/
theorem require_bind (a : α) (f : α → Guarded β) (c : Cursor) :
    (require (some a) >>= f) c = f a c := by
  change (f a c).map _ = _
  cases f a c with
  | none => rfl
  | some step => rfl

theorem position_bind (f : Nat → Guarded β) (c : Cursor) :
    (ofDecoder Decoder.position >>= f) c = f c.position c := by
  change (f c.position c).map _ = _
  cases f c.position c with
  | none => rfl
  | some step => rfl

theorem agrees_address {c : Cursor} (hposition : c.position < 65536) :
    address.Agrees Decoder.address c := by
  have haddress : addressOf? c.position = some c.position.toUInt16 := if_pos hposition
  rw [Agrees, address, position_bind, require, haddress, Decoder.address, if_pos hposition]
  rfl

end Guarded

/-- Behind an operand, its first byte is as far away as the operand is wide. -/
theorem Spells.noticesBefore?_eq {kind : OperandKind} {bytes : Image} {operand : Operand}
    (h : Spells kind bytes operand) (start : Nat) :
    operand.noticesBefore? (start + bytes.length) = some (operand.notices start) := by
  cases h with
  | literal | var | address | popped | location | deref | offset => rfl
  | dataType htype =>
    cases htype with
    | u8 | u16 | i16 | void => rfl
    | unknown => rfl

namespace Guarded

theorem agrees_operand (kind : OperandKind) (c : Cursor) :
    (operand kind).Agrees (Decoder.operand kind) c := by
  -- The plain decoder looks at the position first, the guarded one behind the field.
  have hplain : Decoder.operand kind c = (do
      let operand ← Decoder.field kind
      Decoder.notify (operand.notices c.position)
      return operand : Decoder Operand) c := rfl
  rw [Agrees, hplain]
  refine (agrees_ofDecoder (Decoder.field kind) c).bind ?_
  intro o hresult
  rcases (Decoder.reads_field kind).cases c with
    ⟨_, bytes, rest, -, hlength, hspells, hgives, hcursor⟩ | ⟨-, hstarves, -⟩
  · obtain rfl : _ = o := Except.ok.inj (hgives.symm.trans hresult)
    rw [Agrees, position_bind, hcursor, ← hlength, hspells.noticesBefore?_eq, require_bind]
    rfl
  · rw [hstarves] at hresult
    cases hresult

theorem agrees_operands (kinds : List OperandKind) (c : Cursor) :
    (operands kinds).Agrees (Decoder.operands kinds) c := by
  induction kinds generalizing c with
  | nil => exact agrees_pure [] c
  | cons kind kinds ih =>
    refine (agrees_operand kind c).bind ?_
    intro first _
    refine (ih _).bind ?_
    intro others _
    exact agrees_pure (first :: others) _

/-- Where there is an address, everything that an instruction needs is defined. -/
theorem agrees_instruction {c : Cursor} (hposition : c.position < 65536) :
    instruction.Agrees Decoder.instruction c := by
  refine (agrees_address hposition).bind ?_
  intro address _
  refine (agrees_ofDecoder Decoder.word _).bind ?_
  intro opcode _
  rw [Agrees, Form.byRange?_eq, require_bind]
  refine (agrees_operands _ _).bind ?_
  intro operands _
  exact (agrees_ofDecoder _ _).bind fun _ _ => agrees_pure _ _

end Guarded

/-! ### Runs -/

namespace Run

variable {image : Image}

/-- A run that still reads stands inside an image that is short enough. -/
theorem Over.of_scanning {cursor : Cursor} (h : (Run.scanning cursor).Over image) :
    ∃ position ≤ image.length, image.length < Image.sizeLimit ∧ cursor = .after image position := by
  cases h with
  | scanning hsize hinside => exact ⟨_, hinside, hsize, rfl⟩

/-- So its position has an address. -/
theorem Over.position_lt {cursor : Cursor} (h : (Run.scanning cursor).Over image) :
    cursor.position < 65536 := by
  obtain ⟨position, hinside, hsize, rfl⟩ := h.of_scanning
  exact Nat.lt_trans (Nat.lt_of_le_of_lt hinside hsize) (by decide)

theorem Over.guardedNext_eq {r : Run} (h : r.Over image) : r.guardedNext = some r.next := by
  cases r with
  | refused length => rfl
  | finished position => rfl
  | scanning cursor =>
    have hstep : Guarded.instruction cursor = some (Decoder.instruction cursor) :=
      Guarded.agrees_instruction h.position_lt
    simp only [guardedNext, Run.next, hstep, Option.map_some]
    split <;> rfl

/-- An instruction is given from where the run stands, and it lies inside the image. -/
theorem Over.opcode_of_item_ok {r : Run} {i : Instruction} (h : r.Over image)
    (hitem : r.next.item = some (.ok i)) :
    i.address.toNat = r.position ∧ image.wordAt? i.address.toNat = some i.opcode ∧
      i.address.toNat + 2 ≤ image.length ∧ image.length < Image.sizeLimit := by
  cases r with
  | refused length => cases hitem
  | finished position => cases hitem
  | scanning cursor =>
    have haddress := Nat.le_of_lt_succ h.position_lt
    obtain ⟨position, hinside, hsize, rfl⟩ := h.of_scanning
    have hresult : (Decoder.instruction (.after image position)).result = .ok i := by
      simp only [Run.next, Turn.ofStep] at hitem
      split at hitem
      · split at hitem
        · rename_i hok
          cases hitem
          exact hok
        · cases hitem
      · cases hitem
    obtain ⟨hposition, hword, hsizes, hfits, -⟩ := Decoder.instruction_after_ok haddress hresult
    have htwo := Form.two_le_encodedSize i.opcode
    rw [hposition]
    exact ⟨rfl, hword, by omega, hsize⟩

/-- While a run reads, an instruction is never looked for beyond the last address. -/
theorem Over.instruction_ne_oversize {cursor : Cursor} (h : (Run.scanning cursor).Over image)
    (length : Nat) : (Decoder.instruction cursor).result ≠ .error (.oversize length) := by
  intro hresult
  have hstarves := Decoder.starves_of_instruction_error h.position_lt hresult
  cases hstarves.1.symm.trans hresult

end Run

/-! ### Lines -/

theorem mapM_eq_some_map {α β : Type} {f : α → Option β} {g : α → β} {values : List α}
    (h : ∀ a ∈ values, f a = some (g a)) : values.mapM f = some (values.map g) := by
  induction values with
  | nil => rfl
  | cons a values ih =>
    obtain ⟨hfirst, hothers⟩ := List.forall_mem_cons.mp h
    rw [List.mapM_cons, hfirst, ih hothers]
    rfl

theorem Operand.WellFormed.tokens?_eq {operand : Operand} (h : operand.WellFormed) :
    operand.tokens? = some operand.tokens := by
  cases operand with
  | literal value width =>
    obtain rfl : width = 2 := h
    rfl
  | var | address | popped | offset | location | deref | dataType => rfl

theorem Instruction.WellFormed.line?_eq {i : Instruction} (h : i.WellFormed) :
    i.line? = some i.line := by
  rw [Instruction.line?, mapM_eq_some_map fun operand hmem => (h.operands operand hmem).tokens?_eq]
  rfl

theorem Listing.tokens?_eq {listing : Listing} (h : ∀ i ∈ listing, i.WellFormed) :
    listing.tokens? = some listing.tokens := by
  rw [Listing.tokens?, mapM_eq_some_map fun i hmem => (h i hmem).line?_eq]
  rfl

/-- No operation is ever asked for a value that it does not have. However often a run is
    asked, its answer is the one with all operations guarded. The position of the cursor
    always has an address, so an instruction is never looked for too far in the image, and
    the address of an instruction is exactly where its opcode word stands, 65352 at most.
    The mnemonics of a range of opcodes reach to the end of the range. The literals of a
    listing are two bytes wide, and its lines are those with all operations guarded.
    What is reported to be too long, by disassembly and with any options, has 65355 bytes
    or more. -/
theorem partial_operations_defined (image : Image) :
    let run := Run.start image
    (∀ n, (run.after n).guardedNext = some (run.after n).next) ∧
    (∀ n cursor, run.after n = .scanning cursor →
      (Decoder.address cursor).result = .ok cursor.position.toUInt16 ∧
      cursor.position.toUInt16.toNat = cursor.position ∧
      ∀ length, (Decoder.instruction cursor).result ≠ .error (.oversize length)) ∧
    (∀ n i, run.answer n = some (.ok i) →
      i.address.toNat = (run.after n).position ∧
      image.wordAt? i.address.toNat = some i.opcode ∧ i.address.toNat ≤ 65352) ∧
    (∀ range ∈ MnemonicRange.all, ∀ opcode, range.Holds opcode →
      opcode.toNat - range.first.toNat < range.mnemonics.length) ∧
    (∀ listing, (disassemble image).value = .ok listing →
      listing.tokens? = some listing.tokens ∧
      ∀ i ∈ listing, i.address.toNat ≤ 65352 ∧
        ∀ value width, Operand.literal value width ∈ i.operands → width = 2) ∧
    (∀ length, (disassemble image).value = .error (.oversize length) → 65355 ≤ length) ∧
    (∀ options length, (render options image).value.failure = some (.oversize length) →
      65355 ≤ length) := by
  intro run
  have hover (n : Nat) : (run.after n).Over image := Run.over_after image n
  have hlong (length : Nat) (h : (disassemble image).value = .error (.oversize length)) :
      65355 ≤ length := by
    obtain ⟨rfl, hlength⟩ := disassemble_eq_oversize_iff.mp h
    exact hlength
  refine ⟨?_, ?_, ?_, ?_, ?_, hlong, ?_⟩
  · intro n
    exact (hover n).guardedNext_eq
  · intro n cursor hscanning
    have h := hover n
    rw [hscanning] at h
    have hposition := h.position_lt
    refine ⟨(Decoder.address_gives hposition).1, ?_, h.instruction_ne_oversize⟩
    simp only [Nat.toUInt16, UInt16.toNat_ofNat']
    omega
  · intro n i hi
    obtain ⟨hposition, hword, hinside, hsize⟩ := (hover n).opcode_of_item_ok hi
    unfold Image.sizeLimit at hsize
    exact ⟨hposition, hword, by omega⟩
  · intro range hmem opcode hholds
    exact MnemonicRange.index_lt hmem hholds
  · intro listing hvalue
    have hwell := wellFormed_of_disassemble hvalue
    obtain ⟨hsize, hfills⟩ := disassemble_eq_ok_iff.mp hvalue
    refine ⟨Listing.tokens?_eq hwell, ?_⟩
    intro i hi
    have hinside := hfills.address_add_two_le hi
    unfold Image.sizeLimit at hsize
    exact ⟨by omega, fun value width hmem => (hwell i hi).operands _ hmem⟩
  · intro options length hfailure
    rw [render_failure, failure?_eq_some_iff] at hfailure
    exact hlong length hfailure

/-- A type byte without a meaning, a mnemonic that is found by its place, and a literal. -/
theorem partial_operations_defined_unknown_type :
    let image : Image := [0x00, 0x05, 0x01, 0x00, 0x09, 0x03, 0x0A, 0x00, 0x20, 0x34, 0x12]
    let run := Run.start image
    let listing : Listing :=
      [ ⟨0, 0x0500, some "vnew", [.var 0x0001, .dataType (.unknown 9)]⟩,
        ⟨5, 0x0A03, some "sub", []⟩, ⟨7, 0x2000, some "push", [.literal 0x1234 2]⟩ ]
    let long : Image := List.replicate 65355 0
    (∃ turn, (run.after 0).guardedNext = some turn ∧
      turn.notices = [.unknownType 9 4, .decoded 0 0x0500 "vnew"]) ∧
    run.after 1 = .scanning (.after image 5) ∧
    (Decoder.address (.after image 5)).result = .ok 5 ∧
    run.answer 1 = some (.ok ⟨5, 0x0A03, some "sub", []⟩) ∧
    image.wordAt? 5 = some 0x0A03 ∧
    (disassemble image).value = .ok listing ∧ listing.tokens? = some listing.tokens ∧
    ∃ length, (disassemble long).value = .error (.oversize length) ∧ 65355 ≤ length := by
  intro image run listing long
  obtain ⟨hguarded, haddress, hanswer, -, hlisting, -, -⟩ := partial_operations_defined image
  obtain ⟨-, -, -, -, -, hlong, -⟩ := partial_operations_defined long
  have hafter : run.after 1 = .scanning (.after image 5) := by rfl
  have hsub : run.answer 1 = some (.ok ⟨5, 0x0A03, some "sub", []⟩) := by rfl
  have hvalue : (disassemble image).value = .ok listing := by
    simp only [image, listing]
    with_unfolding_all rfl
  have hoversize : (disassemble long).value = .error (.oversize long.length) :=
    disassemble_of_oversize (Nat.le_of_eq List.length_replicate.symm)
  exact ⟨⟨_, hguarded 0, by rfl⟩, hafter, (haddress 1 _ hafter).1, hsub, (hanswer 1 _ hsub).2.1,
    hvalue, (hlisting listing hvalue).1, long.length, hoversize, hlong _ hoversize⟩

end Disassembly
