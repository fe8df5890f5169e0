import Disassembly.Proofs.LineLayout
import Disassembly.Proofs.Patching

/-!
# Opcodes that are aliases

Some opcodes share their form: a literal source has three spellings, and a move to a
location has two. What is decoded depends on an opcode only through its form
(`Form.ofOpcode?_eq_of_aliases`), so one alias can stand for another in the bytes of an
instruction (`Instruction.SpelledBy.with_alias`), and the instructions behind it keep
their places (`Listing.Fills.replaceOpcodes`).

Any number of opcode words can therefore be replaced at once. The listing shows the other
words and is the same in everything else, and where opcodes are not shown the output in
every format is the same (`aliases_interchangeable`).
-/

namespace Disassembly

/-! ### Classes of opcodes -/

/-- The opcodes that can stand for each other, class by class. -/
def aliasClasses : List (List UInt16) :=
  [ [0x1000, 0x1001, 0x1002], [0x1100, 0x1101, 0x1102], [0x1110, 0x1111, 0x1112],
    [0x1120, 0x1121, 0x1122], [0x2000, 0x2001, 0x2002], [0x1113, 0x1123], [0x1114, 0x1124] ]

/-- Both opcodes are in one class. -/
def Aliases (opcode other : UInt16) : Prop :=
  ∃ members ∈ aliasClasses, opcode ∈ members ∧ other ∈ members

instance (opcode other : UInt16) : Decidable (Aliases opcode other) :=
  inferInstanceAs (Decidable (∃ members ∈ aliasClasses, opcode ∈ members ∧ other ∈ members))

theorem Form.ofOpcode?_eq_of_aliases {opcode other : UInt16} (h : Aliases opcode other) :
    Form.ofOpcode? opcode = Form.ofOpcode? other := by
  have hclasses : ∀ members ∈ aliasClasses, (members.all fun first => members.all fun second =>
      Form.ofOpcode? first == Form.ofOpcode? second) = true := by decide
  obtain ⟨members, hmembers, hopcode, hother⟩ := h
  have hfirst := List.all_eq_true.mp (hclasses members hmembers) opcode hopcode
  exact beq_iff_eq.mp (List.all_eq_true.mp hfirst other hother)

/-- With an alias in the place of its opcode word an instruction is spelled as before. -/
theorem Instruction.SpelledBy.with_alias {i : Instruction} {bytes : Image} {opcode : UInt16}
    (h : i.SpelledBy bytes) (halias : Aliases i.opcode opcode) :
    ∃ low high fields, bytes = low :: high :: fields ∧
      Instruction.SpelledBy { i with opcode := opcode } (bytesOfWord opcode ++ fields) := by
  have hform := Form.ofOpcode?_eq_of_aliases halias
  cases h with
  | @mk low high address own fields operands hopcode hfields =>
    have hkinds : Form.kindsOf own = Form.kindsOf opcode := by
      simp only [Form.kindsOf, hform]
    rw [hkinds] at hfields
    refine ⟨low, high, fields, rfl, ?_⟩
    rw [hform]
    exact .mk (littleEndian_bytesOfWord opcode) hfields

/-! ### Replacing opcodes -/

section Replacement

-- The instructions of a listing differ in their addresses, so a set of them with a new
-- opcode for each is a choice of this kind.
variable (replacement : Instruction → Option UInt16)

/-- The instruction with the opcode that was chosen for it, if one was. -/
def Instruction.replaceOpcode (i : Instruction) : Instruction :=
  { i with opcode := (replacement i).getD i.opcode }

/-- Write the word that was chosen for an instruction over its opcode word. -/
def Image.replaceOpcode (image : Image) (i : Instruction) : Image :=
  match replacement i with
  | some opcode => image.overwrite i.address.toNat (bytesOfWord opcode)
  | none => image

/-- Write all words that were chosen for the instructions of a listing. -/
def Image.replaceOpcodes (image : Image) (listing : Listing) : Image :=
  listing.foldl (Image.replaceOpcode replacement) image

/-- Only an alias is chosen for an instruction. -/
def Instruction.ChoosesAlias (i : Instruction) : Prop :=
  ∀ opcode, replacement i = some opcode → Aliases i.opcode opcode

variable {replacement}

/-- Replacing an opcode word touches the bytes of its instruction only. -/
theorem Instruction.SpelledBy.replaceOpcode {i : Instruction} {bytes : Image}
    (h : i.SpelledBy bytes) (halias : i.ChoosesAlias replacement) :
    ∃ bytes' : Image, bytes'.length = bytes.length ∧
      (i.replaceOpcode replacement).SpelledBy bytes' ∧
      ∀ before rest : Image, before.length = i.address.toNat →
        Image.replaceOpcode replacement (before ++ (bytes ++ rest)) i =
          before ++ (bytes' ++ rest) := by
  unfold Instruction.replaceOpcode Image.replaceOpcode
  cases hchoice : replacement i with
  | none =>
    refine ⟨bytes, rfl, h, ?_⟩
    intro before rest _
    rfl
  | some opcode =>
    obtain ⟨low, high, fields, rfl, hspelled⟩ := h.with_alias (halias opcode hchoice)
    refine ⟨bytesOfWord opcode ++ fields, rfl, hspelled, ?_⟩
    intro before rest hbefore
    rw [← hbefore]
    exact @Image.overwrite_append before [low, high] (bytesOfWord opcode) (fields ++ rest) rfl

/-- Aliases fill the same places. The bytes in front, which are those of the instructions
    that have been dealt with, are carried along. -/
theorem Listing.Fills.replaceOpcodes {listing : Listing} {position : Nat} {bytes : Image}
    (h : listing.Fills position bytes) (halias : ∀ i ∈ listing, i.ChoosesAlias replacement)
    (before : Image) (hbefore : before.length = position) :
    ∃ bytes' : Image, bytes'.length = bytes.length ∧
      Image.replaceOpcodes replacement (before ++ bytes) listing = before ++ bytes' ∧
      Fills (listing.map (Instruction.replaceOpcode replacement)) position bytes' := by
  induction h generalizing before with
  | nil => exact ⟨[], rfl, rfl, .nil⟩
  | @cons i listing first rest hspelled _ ih =>
    obtain ⟨hi, hothers⟩ := List.forall_mem_cons.mp halias
    obtain ⟨first', hlength, hspelled', hreplace⟩ := hspelled.replaceOpcode hi
    have hnext : (before ++ first').length = i.address.toNat + first.length := by
      rw [List.length_append, hbefore, hlength]
    obtain ⟨rest', hlength', hreplaced, hfills⟩ := ih hothers (before ++ first') hnext
    refine ⟨first' ++ rest', ?_, ?_, ?_⟩
    · rw [List.length_append, List.length_append, hlength, hlength']
    · rw [List.append_assoc, List.append_assoc] at hreplaced
      rw [Image.replaceOpcodes, List.foldl_cons, hreplace before rest hbefore]
      exact hreplaced
    · rw [← hlength] at hfills
      exact .cons hspelled' hfills

theorem disassemble_replaceOpcodes {image : Image} {listing : Listing}
    (himage : (disassemble image).value = .ok listing)
    (halias : ∀ i ∈ listing, i.ChoosesAlias replacement) :
    (image.replaceOpcodes replacement listing).length = image.length ∧
      (disassemble (image.replaceOpcodes replacement listing)).value =
        .ok (listing.map (Instruction.replaceOpcode replacement)) := by
  obtain ⟨hsize, hfills⟩ := disassemble_eq_ok_iff.mp himage
  obtain ⟨image', hlength, hreplaced, hfills'⟩ := hfills.replaceOpcodes halias [] rfl
  rw [List.nil_append, List.nil_append] at hreplaced
  rw [hreplaced]
  refine ⟨hlength, disassemble_of_fills ?_ hfills'⟩
  rw [hlength]
  exact hsize

/-! ### Lines without opcodes -/

variable {options : Options}

/-- Where opcodes are not shown, a terminal line does not depend on them. -/
theorem Terminal.lineText_replaceOpcode (hhidden : options.columns.shows .opcode = false)
    (i : Instruction) :
    (writer options).lineText (i.replaceOpcode replacement) = (writer options).lineText i := by
  have hcell (token : Token) : cell options.columns .opcode token = [] := by
    simp [cell, hhidden]
  rw [lineText_eq, lineText_eq, line, line, hcell, hcell]
  rfl

/-- On a page the span of the columns is closed all the same. -/
theorem Page.lineText_replaceOpcode (hhidden : options.columns.shows .opcode = false)
    (i : Instruction) :
    (writer options).lineText (i.replaceOpcode replacement) = (writer options).lineText i := by
  have hcell (token token' : Token) :
      cell options.columns .opcode token = cell options.columns .opcode token' := by
    simp [cell, hhidden]
  rw [lineText_eq, lineText_eq, line, line, hcell _ (.word i.opcode)]
  rfl

/-- Listings that differ in opcodes only look the same where opcodes are not shown. -/
theorem output_replaceOpcode {image image' : Image} {listing : Listing}
    (hhidden : options.columns.shows .opcode = false)
    (himage : (disassemble image).value = .ok listing)
    (himage' : (disassemble image').value =
      .ok (listing.map (Instruction.replaceOpcode replacement))) :
    (render options image').value.output = (render options image).value.output := by
  by_cases hformat : options.format = .html
  · have hlines : (listing.map (Instruction.replaceOpcode replacement)).map
        (Page.writer options).lineText = listing.map (Page.writer options).lineText := by
      rw [List.map_map]
      apply List.map_congr_left
      intro i _
      exact Page.lineText_replaceOpcode hhidden i
    rw [Page.output_eq hformat himage, Page.output_eq hformat himage', hlines]
  · have hlines : (listing.map (Instruction.replaceOpcode replacement)).map
        (Terminal.writer options).lineText = listing.map (Terminal.writer options).lineText := by
      rw [List.map_map]
      apply List.map_congr_left
      intro i _
      exact Terminal.lineText_replaceOpcode hhidden i
    rw [Terminal.output_eq hformat himage, Terminal.output_eq hformat himage', hlines]

end Replacement

/-- Aliases are interchangeable. In an image that has a listing, the opcode words of any
    instructions can be replaced by aliases, all at the same time. The image keeps its
    length and still has a listing, in which these opcodes are the new ones and nothing
    else has changed. With all options under which opcodes are not shown, the renderings
    of both images are the same. -/
theorem aliases_interchangeable (image : Image) (listing : Listing)
    (replacement : Instruction → Option UInt16)
    (himage : (disassemble image).value = .ok listing)
    (halias : ∀ i ∈ listing, ∀ opcode, replacement i = some opcode → Aliases i.opcode opcode) :
    let changed := image.replaceOpcodes replacement listing
    changed.length = image.length ∧
    (disassemble changed).value =
      .ok (listing.map fun i => { i with opcode := (replacement i).getD i.opcode }) ∧
    ∀ options : Options, options.columns.shows .opcode = false →
      (render options changed).value = (render options image).value := by
  intro changed
  obtain ⟨hlength, hchanged⟩ := disassemble_replaceOpcodes himage halias
  refine ⟨hlength, hchanged, ?_⟩
  intro options hhidden
  have houtput := output_replaceOpcode hhidden himage hchanged
  have hfailure : (render options changed).value.failure =
      (render options image).value.failure := by
    rw [render_failure, render_failure, himage, hchanged]
    rfl
  calc (render options changed).value
      = ⟨(render options changed).value.output, (render options changed).value.failure⟩ := rfl
    _ = ⟨(render options image).value.output, (render options image).value.failure⟩ := by
      rw [houtput, hfailure]
    _ = (render options image).value := rfl

/-- Two of three opcodes are replaced, one of them by an alias from another row of the
    instruction set. Nothing tells the images apart when opcodes are not shown. -/
theorem aliases_interchangeable_mov :
    let image : Image := [0x02, 0x10, 0x01, 0x00, 0x05, 0x00, 0x23, 0x11, 0x34, 0x12, 0x07, 0x00,
      0x00, 0x20, 0x09, 0x00]
    let changed : Image := [0x00, 0x10, 0x01, 0x00, 0x05, 0x00, 0x13, 0x11, 0x34, 0x12, 0x07, 0x00,
      0x00, 0x20, 0x09, 0x00]
    let store : Instruction := ⟨0, 0x1002, some "str", [.var 1, .literal 5 2]⟩
    let move : Instruction := ⟨6, 0x1123, some "mov", [.location 0x1234, .var 7]⟩
    let push : Instruction := ⟨12, 0x2000, some "push", [.literal 9 2]⟩
    let replacement (i : Instruction) : Option UInt16 :=
      if i = store then some 0x1000 else if i = move then some 0x1113 else none
    (disassemble image).value = .ok [store, move, push] ∧
      (∀ i ∈ [store, move, push], ∀ opcode, replacement i = some opcode →
        Aliases i.opcode opcode) ∧
      (disassemble changed).value =
        .ok [{ store with opcode := 0x1000 }, { move with opcode := 0x1113 }, push] ∧
      ∀ options : Options, options.columns.shows .opcode = false →
        (render options changed).value = (render options image).value := by
  intro image changed store move push replacement
  have himage : (disassemble image).value = .ok [store, move, push] := by
    simp only [image, store, move, push]
    with_unfolding_all rfl
  have halias : ∀ i ∈ [store, move, push], ∀ opcode, replacement i = some opcode →
      Aliases i.opcode opcode := by
    have hstore : replacement store = some 0x1000 := by decide
    have hmove : replacement move = some 0x1113 := by decide
    have hpush : replacement push = none := by decide
    simp only [List.forall_mem_cons, hstore, hmove, hpush, Option.some.injEq, forall_eq']
    exact ⟨by decide, by decide, nofun, nofun⟩
  obtain ⟨-, hchanged, hrender⟩ :=
    aliases_interchangeable image [store, move, push] replacement himage halias
  have hbytes : image.replaceOpcodes replacement [store, move, push] = changed := by decide
  rw [hbytes] at hchanged hrender
  exact ⟨himage, halias, hchanged, hrender⟩

end Disassembly
