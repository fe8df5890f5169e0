import Mathlib.Data.List.Forall2
import Mathlib.Data.String.Basic
import Disassembly.Proofs.ColumnProjection
import Disassembly.Proofs.Patching
import Disassembly.Proofs.Truncation

/-!
# Lines of text can be read back

Plain text with both columns is a table. Every instruction has a line of its own, and
cutting a line at its tabs gives the address, the opcode, the mnemonic and, if there are
any, the operands (`Terminal.ReadsBack`). The mnemonic is the only keyword of a line with
a token behind it, so no other tab is ever written (`Terminal.chars_bodyLine`), and no
tab and no blank is left over at the end of a line.

Addresses and opcodes are numerals of the same width. Such numerals are ordered like the
numbers they stand for (`Hex.lt_of_foldl_lt`), so the lines of a listing are in the order
of their texts. From the opcode of a line its length is known, and with it the address of
the next line (`text_lines_read_back`).
-/

namespace Disassembly

/-! ### Numerals in order -/

namespace Hex

/-- The digits, in the order of their values. -/
def digitSet : List Char := "0123456789ABCDEF".toList

theorem digitValue_lt : ∀ c ∈ digitSet, digitValue c < 16 := by
  have hall : digitSet.all fun c => digitValue c < 16 := by decide
  simpa only [List.all_eq_true, decide_eq_true_eq] using hall

theorem digit_lt_iff : ∀ c ∈ digitSet, ∀ d ∈ digitSet, c < d ↔ digitValue c < digitValue d := by
  have hall : digitSet.all fun c => digitSet.all fun d =>
      decide (c < d ↔ digitValue c < digitValue d) := by
    decide
  simpa only [List.all_eq_true, decide_eq_true_eq] using hall

theorem digitValue_inj {c d : Char} (hc : c ∈ digitSet) (hd : d ∈ digitSet)
    (h : digitValue c = digitValue d) : c = d := by
  have hlt := digit_lt_iff c hc d hd
  have hgt := digit_lt_iff d hd c hc
  rcases lt_trichotomy c d with hcase | hcase | hcase
  · have hvalue := hlt.mp hcase
    omega
  · exact hcase
  · have hvalue := hgt.mp hcase
    omega

/-- What has been read decides, whatever digits follow. -/
theorem foldl_lt_foldl {x y : List Char} (hlength : x.length = y.length)
    (hx : ∀ c ∈ x, c ∈ digitSet) {v w : Nat} (h : v < w) :
    x.foldl (fun value c => 16 * value + digitValue c) v <
      y.foldl (fun value c => 16 * value + digitValue c) w := by
  induction x generalizing y v w with
  | nil =>
    obtain rfl : y = [] := List.length_eq_zero_iff.mp hlength.symm
    exact h
  | cons c x ih =>
    cases y with
    | nil => cases hlength
    | cons d y =>
      obtain ⟨hc, hrest⟩ := List.forall_mem_cons.mp hx
      have hvalue := digitValue_lt c hc
      have hread : 16 * v + digitValue c < 16 * w + digitValue d := by omega
      exact ih (Nat.succ.inj hlength) hrest hread

/-- Numerals of the same length are ordered like the numbers they stand for. -/
theorem lt_of_foldl_lt {x y : List Char} (hlength : x.length = y.length)
    (hx : ∀ c ∈ x, c ∈ digitSet) (hy : ∀ c ∈ y, c ∈ digitSet) {v : Nat}
    (h : x.foldl (fun value c => 16 * value + digitValue c) v <
      y.foldl (fun value c => 16 * value + digitValue c) v) : x < y := by
  induction x generalizing y v with
  | nil =>
    obtain rfl : y = [] := List.length_eq_zero_iff.mp hlength.symm
    exact absurd h (Nat.lt_irrefl v)
  | cons c x ih =>
    cases y with
    | nil => cases hlength
    | cons d y =>
      have hlength := Nat.succ.inj hlength
      obtain ⟨hc, hx⟩ := List.forall_mem_cons.mp hx
      obtain ⟨hd, hy⟩ := List.forall_mem_cons.mp hy
      rw [List.foldl_cons, List.foldl_cons] at h
      rw [List.cons_lt_cons_iff]
      rcases Nat.lt_trichotomy (digitValue c) (digitValue d) with hlt | heq | hgt
      · exact Or.inl ((digit_lt_iff c hc d hd).mpr hlt)
      · rw [heq] at h
        exact Or.inr ⟨digitValue_inj hc hd heq, ih hlength hx hy h⟩
      · have hother := foldl_lt_foldl hlength.symm hy
          (show 16 * v + digitValue d < 16 * v + digitValue c by omega)
        omega

theorem mem_digitSet {width n : Nat} : ∀ c ∈ (numeral width n).toList, c ∈ digitSet :=
  fun _ hc => mem_numeral hc

theorem numeral_lt_numeral {a b : UInt16} (h : a.toNat < b.toNat) :
    (numeral 4 a.toNat).toList < (numeral 4 b.toNat).toList := by
  apply lt_of_foldl_lt _ mem_digitSet mem_digitSet (v := 0)
  · change read _ < read _
    rw [read_numeral, read_numeral]
    exact h
  · rw [length_numeral_word, length_numeral_word]

end Hex

/-! ### Ends of lines -/

/-- The text ends, and not in white space. -/
def EndsVisibly (text : List Char) : Prop :=
  text.getLast? ∉ [none, some '\t', some ' ']

instance (text : List Char) : Decidable (EndsVisibly text) :=
  inferInstanceAs (Decidable (text.getLast? ∉ [none, some '\t', some ' ']))

theorem EndsVisibly.append {text : List Char} (h : EndsVisibly text) (front : List Char) :
    EndsVisibly (front ++ text) := by
  cases hlast : text.getLast? with
  | none => simp [EndsVisibly, hlast] at h
  | some c => simpa [EndsVisibly, List.getLast?_append, hlast] using h

theorem endsVisibly_numeral (width n : Nat) : EndsVisibly (Hex.numeral width n).toList := by
  have hwhite : '\t' ∉ Hex.digitSet ∧ ' ' ∉ Hex.digitSet := by decide
  have hne : (Hex.numeral width n).toList ≠ [] :=
    mt String.toList_eq_nil_iff.mp (clean_numeral width n).1
  have hlast := Hex.mem_digitSet _ (List.getLast_mem hne)
  rw [EndsVisibly, List.getLast?_eq_some_getLast hne]
  intro hmem
  rcases (by simpa using hmem) with htab | hblank
  · rw [htab] at hlast
    exact hwhite.1 hlast
  · rw [hblank] at hlast
    exact hwhite.2 hlast

namespace Terminal

/-- The text of a token behind the columns. -/
def bodyChars (token : Token) : List Char := (bodyFragment token).text.toList

theorem endsVisibly_hex (value : UInt16) (width : UInt8) :
    EndsVisibly (bodyChars (.hex value width)) := by
  simpa [bodyChars, bodyFragment, hexFragment, Fragment.text, Token.text] using
    (endsVisibly_numeral width.toNat value.toNat).append ['$']

theorem endsVisibly_var (id : UInt16) : EndsVisibly (bodyChars (.var id)) := by
  simpa [bodyChars, bodyFragment, Fragment.text, Token.text, variableName] using
    (endsVisibly_numeral 4 id.toNat).append ['V', 'A', 'R', '_']

theorem endsVisibly_varAddress (id : UInt16) : EndsVisibly (bodyChars (.varAddress id)) := by
  simpa [bodyChars, bodyFragment, Fragment.text, Token.text, variableName] using
    (endsVisibly_numeral 4 id.toNat).append ['&', 'V', 'A', 'R', '_']

theorem endsVisibly_concat (front : List Token) {token : Token}
    (h : EndsVisibly (bodyChars token)) : EndsVisibly ((front ++ [token]).flatMap bodyChars) := by
  rw [List.flatMap_append, List.flatMap_singleton]
  exact h.append _

/-- No operand ends in white space. -/
theorem endsVisibly_operand (operand : Operand) :
    EndsVisibly (operand.tokens.flatMap bodyChars) := by
  cases operand with
  | literal value width => exact endsVisibly_concat [] (endsVisibly_hex value _)
  | var id => exact endsVisibly_concat [] (endsVisibly_var id)
  | address id => exact endsVisibly_concat [] (endsVisibly_varAddress id)
  | popped => decide
  | offset expr =>
    have hclose : EndsVisibly (bodyChars (.punctuation "]")) := by decide
    exact endsVisibly_concat [_, _, _, _] hclose
  | location value => exact endsVisibly_concat [] (endsVisibly_hex value 4)
  | deref id => exact endsVisibly_concat [_] (endsVisibly_var id)
  | dataType type =>
    cases type with
    | u8 | u16 | i16 | void => decide
    | unknown byte => exact endsVisibly_concat [] (by decide : EndsVisibly "UNKNOWN TYPE".toList)

/-! ### The operands of a line -/

/-- If only the last token is a keyword, then no tab is written between tokens. -/
theorem chars_bodyLine (tabDue : Bool) {tokens : List Token} (hne : tokens ≠ [])
    (h : ∀ name, Token.keyword name ∉ tokens.dropLast) :
    Fragment.chars (bodyLine tabDue tokens) =
      Fragment.chars (tab tabDue) ++ tokens.flatMap bodyChars := by
  induction tokens generalizing tabDue with
  | nil => exact absurd rfl hne
  | cons token tokens ih =>
    cases tokens with
    | nil => simp [bodyLine, bodyChars]
    | cons other tokens =>
      rw [List.dropLast_cons_cons] at h
      have hkeyword : token.isKeyword = false := by
        cases token with
        | keyword name => exact absurd List.mem_cons_self (h name)
        | hex | typeName | var | varAddress | punctuation | lineBreak | unknown => rfl
      have hrest := ih false (List.cons_ne_nil _ _)
        fun name hname => h name (List.mem_cons_of_mem _ hname)
      rw [bodyLine, hkeyword, Fragment.chars_append, Fragment.chars_cons, hrest, List.flatMap_cons]
      rfl

end Terminal

namespace Instruction

/-- The text of the operands. -/
def operandChars (i : Instruction) : List Char := i.operandTokens.flatMap Terminal.bodyChars

def headChars (i : Instruction) : List Char := Terminal.bodyChars i.head

/-- The tokens of the operands end with those of the last operand. -/
theorem exists_last_operand {i : Instruction} (h : i.operands ≠ []) :
    ∃ (front : List Token) (last : Operand), i.operandTokens = front ++ last.tokens := by
  rcases List.eq_nil_or_concat i.operands with hnil | ⟨others, last, hconcat⟩
  · exact absurd hnil h
  · rw [List.concat_eq_append] at hconcat
    exact ⟨_, last, operandTokens_concat hconcat⟩

theorem endsVisibly_operandChars {i : Instruction} (h : i.operands ≠ []) :
    EndsVisibly i.operandChars := by
  obtain ⟨front, last, htokens⟩ := exists_last_operand h
  rw [operandChars, htokens, List.flatMap_append]
  exact (Terminal.endsVisibly_operand last).append _

end Instruction

namespace Instruction.WellFormed

variable {i : Instruction}

/-- A tab stands between the mnemonic and the operands, and nowhere else. -/
theorem chars_body (h : i.WellFormed) :
    Fragment.chars (Terminal.bodyLine false i.body) =
      i.headChars ++ (if i.operands = [] then [] else '\t' :: i.operandChars) := by
  change Fragment.chars (Terminal.bodyLine false (i.head :: i.operandTokens)) = _
  rw [Terminal.bodyLine, Fragment.chars_append, Fragment.chars_cons]
  by_cases hnil : i.operands = []
  · have htokens : i.operandTokens = [] := by rw [operandTokens, hnil]; rfl
    rw [if_pos hnil, htokens]
    rfl
  · have hkeyword : i.head.isKeyword = true := by
      unfold head
      split
      · rfl
      · rename_i hmnemonic
        exact absurd (h.operands_eq_nil hmnemonic) hnil
    have htokens : i.operandTokens ≠ [] := by
      obtain ⟨front, last, hlast⟩ := exists_last_operand hnil
      rw [hlast]
      exact List.append_ne_nil_of_right_ne_nil front last.tokens_ne_nil
    rw [if_neg hnil, hkeyword, Terminal.chars_bodyLine true htokens h.keyword_not_mem]
    rfl

theorem tab_not_mem_bodyChars (h : i.WellFormed) :
    ∀ token ∈ i.body, '\t' ∉ Terminal.bodyChars token := by
  intro token htoken
  exact (Terminal.clean_bodyFragment (h.clean_body token htoken)).not_mem (by decide)

/-- Behind the columns there is one field, or two if the instruction has operands. -/
theorem splitOn_body (h : i.WellFormed) :
    (Fragment.chars (Terminal.bodyLine false i.body)).splitOn '\t' =
      i.headChars :: (if i.operands = [] then [] else [i.operandChars]) := by
  obtain ⟨hhead, hoperands⟩ := List.forall_mem_cons.mp h.tab_not_mem_bodyChars
  have hheadChars : '\t' ∉ i.headChars := hhead
  have hoperandChars : '\t' ∉ i.operandChars := by
    intro hmem
    obtain ⟨token, htoken, hchar⟩ := List.mem_flatMap.mp hmem
    exact hoperands token htoken hchar
  rw [h.chars_body]
  split
  · rw [List.append_nil, List.splitOn_eq_singleton hheadChars]
  · rw [List.splitOn_append_cons_self_of_not_mem hheadChars,
      List.splitOn_eq_singleton hoperandChars]

theorem endsVisibly_head (h : i.WellFormed) : EndsVisibly i.headChars := by
  have hnames : ∀ row ∈ opcodeTable, EndsVisibly row.2.mnemonic.toList := by decide
  have hmnemonic := h.mnemonic_eq
  unfold headChars head
  split
  · rename_i mnemonic hsome
    rw [hsome] at hmnemonic
    obtain ⟨form, hform, rfl⟩ := Option.map_eq_some_iff.mp hmnemonic.symm
    change EndsVisibly form.mnemonic.toList
    exact hnames (i.opcode, form) (mem_opcodeTable_of_lookup hform)
  · exact (by decide : EndsVisibly "unknown".toList)

theorem endsVisibly_body (h : i.WellFormed) :
    EndsVisibly (Fragment.chars (Terminal.bodyLine false i.body)) := by
  rw [h.chars_body]
  split
  · rw [List.append_nil]
    exact h.endsVisibly_head
  · rename_i hne
    exact ((endsVisibly_operandChars hne).append ['\t']).append i.headChars

end Instruction.WellFormed

/-! ### Lines -/

namespace Terminal

/-- The text between two tabs of a line, the first at index zero. -/
def fieldAt (line : List Char) (k : Nat) : List Char := (line.splitOn '\t')[k]?.getD []

/-- The number in a field, where a single character stands in front of the digits. -/
def numberAt (line : List Char) (k : Nat) : Nat := Hex.read (fieldAt line k).tail

/-- A dollar sign and four digits that stand for the word. -/
def ShowsWord (field : List Char) (word : UInt16) : Prop :=
  ∃ digits, field = '$' :: digits ∧ digits.length = 4 ∧
    (∀ c ∈ digits, c ∈ Hex.digitSet) ∧ Hex.read digits = word.toNat

/-- The line of an instruction as it is found in the text. -/
structure ReadsBack (i : Instruction) (line : List Char) : Prop where
  fields : (line.splitOn '\t').length = if i.operands = [] then 3 else 4
  address : ShowsWord (fieldAt line 0) i.address
  opcode : ShowsWord (fieldAt line 1) i.opcode
  ending : line.getLast? ≠ some '\t' ∧ line.getLast? ≠ some ' '

/-- The field of a word. -/
def wordChars (word : UInt16) : List Char := '$' :: (Hex.numeral 4 word.toNat).toList

theorem showsWord_wordChars (word : UInt16) : ShowsWord (wordChars word) word :=
  ⟨_, rfl, Hex.length_numeral_word word, Hex.mem_digitSet, Hex.read_numeral 4 word.toNat⟩

theorem tab_not_mem_wordChars (word : UInt16) : '\t' ∉ wordChars word := by
  have hdigits := (clean_numeral 4 word.toNat).not_mem (by decide : '\t' ∈ layoutCharacters)
  simpa [wordChars] using hdigits

/-- The characters of a line with both columns, without colours. -/
def tableLine (i : Instruction) : List Char :=
  wordChars i.address ++ '\t' :: (wordChars i.opcode ++ '\t' ::
    Fragment.chars (bodyLine false i.body))

theorem line_row {columns : Columns} (h : ∀ column, columns.shows column = true)
    (i : Instruction) : (row none i).line columns = tableLine i := by
  simp [Row.line, row, h, tableLine, wordChars, hexFragment, Fragment.write_none, Fragment.text,
    Fragment.chars, Token.text, Token.word]

theorem splitOn_tableLine {i : Instruction} (h : i.WellFormed) :
    (tableLine i).splitOn '\t' =
      wordChars i.address :: wordChars i.opcode :: i.headChars ::
        (if i.operands = [] then [] else [i.operandChars]) := by
  rw [tableLine, List.splitOn_append_cons_self_of_not_mem (tab_not_mem_wordChars _),
    List.splitOn_append_cons_self_of_not_mem (tab_not_mem_wordChars _), h.splitOn_body]

theorem fieldAt_tableLine {i : Instruction} (h : i.WellFormed) :
    fieldAt (tableLine i) 0 = wordChars i.address ∧
      fieldAt (tableLine i) 1 = wordChars i.opcode := by
  rw [fieldAt, fieldAt, splitOn_tableLine h]
  exact ⟨rfl, rfl⟩

theorem numberAt_tableLine {i : Instruction} (h : i.WellFormed) :
    numberAt (tableLine i) 0 = i.address.toNat ∧ numberAt (tableLine i) 1 = i.opcode.toNat := by
  rw [numberAt, numberAt, (fieldAt_tableLine h).1, (fieldAt_tableLine h).2]
  exact ⟨Hex.read_numeral 4 _, Hex.read_numeral 4 _⟩

theorem readsBack_tableLine {i : Instruction} (h : i.WellFormed) : ReadsBack i (tableLine i) where
  fields := by
    rw [splitOn_tableLine h]
    split <;> rfl
  address := by
    rw [(fieldAt_tableLine h).1]
    exact showsWord_wordChars i.address
  opcode := by
    rw [(fieldAt_tableLine h).2]
    exact showsWord_wordChars i.opcode
  ending := by
    have hvisible := ((((h.endsVisibly_body.append ['\t']).append (wordChars i.opcode)).append
      ['\t']).append (wordChars i.address))
    change EndsVisibly (tableLine i) at hvisible
    rw [EndsVisibly, List.mem_cons, List.mem_pair, not_or, not_or] at hvisible
    exact hvisible.2

end Terminal

/-! ### Addresses -/

namespace Listing.Fills

variable {listing : Listing} {position : Nat} {bytes : Image}

/-- Addresses increase along a listing. -/
theorem pairwise_address (h : listing.Fills position bytes) :
    listing.Pairwise fun i j => i.address.toNat < j.address.toNat := by
  induction h with
  | nil => exact .nil
  | @cons i listing bytes rest hspelled hrest ih =>
    refine .cons ?_ ih
    intro j hj
    have hposition := hrest.position_le_address hj
    have htwo := hspelled.two_le_length
    omega

/-- The last instruction ends where the bytes end. -/
theorem address_last (h : listing.Fills position bytes) {i : Instruction}
    (hi : listing.getLast? = some i) : i.address.toNat + i.size = position + bytes.length := by
  induction h with
  | nil => cases hi
  | @cons j listing bytes rest hspelled hrest ih =>
    rw [List.length_append]
    cases listing with
    | nil =>
      obtain rfl : j = i := Option.some.inj hi
      cases hrest
      rw [hspelled.size_eq]
      rfl
    | cons other listing =>
      rw [List.getLast?_cons_cons] at hi
      have hend := ih hi
      omega

end Listing.Fills

namespace Terminal

variable {image : Image} {listing : Listing}

/-- Cutting the output at its line feeds gives the lines of the instructions. -/
theorem splitOn_output {options : Options} (hformat : options.format = .text)
    (hheader : options.header = false) (hcolumns : ∀ column, options.columns.shows column = true)
    (h : (disassemble image).value = .ok listing) :
    (render options image).value.output.toList.splitOn '\n' = listing.map tableLine ++ [[]] := by
  have hwell := wellFormed_of_disassemble h
  have hhtml : options.format ≠ .html := by rw [hformat]; decide
  have hpalette : palette? options = none := by rw [palette?, hformat]; rfl
  have hlines : (rows none false listing).map (Row.line options.columns) =
      listing.map tableLine := by
    rw [rows, if_neg Bool.false_ne_true, List.nil_append, List.map_map]
    exact List.map_congr_left fun i _ => line_row hcolumns i
  rw [toList_output_eq_rows hhtml h, hpalette, hheader, hlines]
  apply splitOn_flatMap_append
  intro line hline
  obtain ⟨i, hi, rfl⟩ := List.mem_map.mp hline
  rw [← line_row hcolumns]
  exact (tabular_row none (hwell i hi)).lineFeed_not_mem options.columns

/-- From the opcode of a line its length is known. -/
theorem end_tableLine (h : (disassemble image).value = .ok listing) {i : Instruction}
    (hi : i ∈ listing) :
    numberAt (tableLine i) 0 +
        (instructionLength (numberAt (tableLine i) 1).toUInt16).value =
      i.address.toNat + i.size := by
  obtain ⟨haddress, hopcode⟩ := numberAt_tableLine (wellFormed_of_disassemble h i hi)
  have hword : i.opcode.toNat.toUInt16 = i.opcode := UInt16.ofNat_toNat
  rw [haddress, hopcode, hword, instructionLength_value, size_eq_encodedSize h hi]

/-- Texts of addresses increase along a listing. -/
theorem pairwise_fieldAt (h : (disassemble image).value = .ok listing) :
    ((listing.map tableLine).map fun line => String.ofList (fieldAt line 0)).Pairwise
      (· < ·) := by
  obtain ⟨-, hfills⟩ := disassemble_eq_ok_iff.mp h
  have hwell := wellFormed_of_disassemble h
  rw [List.map_map, List.pairwise_map]
  refine hfills.pairwise_address.imp_of_mem ?_
  intro i j hi hj hlt
  rw [Function.comp_apply, Function.comp_apply, (fieldAt_tableLine (hwell i hi)).1,
    (fieldAt_tableLine (hwell j hj)).1, String.lt_iff_toList_lt, String.toList_ofList,
    String.toList_ofList, wordChars, wordChars, List.cons_lt_cons_iff]
  exact Or.inr ⟨rfl, Hex.numeral_lt_numeral hlt⟩

end Terminal

/-- Plain text with both columns and no header can be read back. About an image that has a
    listing it consists of one line for each instruction, with a line feed at the end. A
    line has three fields between its tabs, or four if the instruction has operands, and
    ends neither in a tab nor in a blank. The first two fields are a dollar sign and four
    digits, which stand for the address and the opcode. As texts, the first fields
    increase. The address of a line and the length that belongs to its opcode add up to
    the address of the next line, and on the last line to the length of the image. -/
theorem text_lines_read_back (options : Options) (image : Image) (listing : Listing)
    (hformat : options.format = .text) (hheader : options.header = false)
    (hcolumns : ∀ column, options.columns.shows column = true)
    (h : (disassemble image).value = .ok listing) :
    ∃ lines : List (List Char),
      (render options image).value.output.toList.splitOn '\n' = lines ++ [[]] ∧
      List.Forall₂ Terminal.ReadsBack listing lines ∧
      (lines.map fun line => String.ofList (Terminal.fieldAt line 0)).Pairwise (· < ·) ∧
      (∀ k line next, lines[k]? = some line → lines[k + 1]? = some next →
        Terminal.numberAt line 0 +
            (instructionLength (Terminal.numberAt line 1).toUInt16).value =
          Terminal.numberAt next 0) ∧
      (∀ line, lines.getLast? = some line →
        Terminal.numberAt line 0 +
            (instructionLength (Terminal.numberAt line 1).toUInt16).value =
          image.length) := by
  obtain ⟨-, hfills⟩ := disassemble_eq_ok_iff.mp h
  have hwell := wellFormed_of_disassemble h
  refine ⟨listing.map Terminal.tableLine, Terminal.splitOn_output hformat hheader hcolumns h, ?_,
    Terminal.pairwise_fieldAt h, ?_, ?_⟩
  · rw [List.forall₂_map_right_iff, List.forall₂_same]
    intro i hi
    exact Terminal.readsBack_tableLine (hwell i hi)
  · intro k line next hline hnext
    rw [List.getElem?_map, Option.map_eq_some_iff] at hline hnext
    obtain ⟨i, hi, rfl⟩ := hline
    obtain ⟨j, hj, rfl⟩ := hnext
    rw [Terminal.end_tableLine h (List.mem_of_getElem? hi),
      (Terminal.numberAt_tableLine (hwell j (List.mem_of_getElem? hj))).1]
    exact (hfills.address_next hi hj).symm
  · intro line hline
    rw [List.getLast?_map, Option.map_eq_some_iff] at hline
    obtain ⟨i, hi, rfl⟩ := hline
    rw [Terminal.end_tableLine h (List.mem_of_getLast? hi), hfills.address_last hi, Nat.zero_add]

/-- Three lines are found, of which only the first has operands, and the last one ends
    with the image. -/
theorem text_lines_read_back_three :
    let image : Image := [0x00, 0x05, 0x34, 0x12, 0x01, 0xFF, 0x00, 0x01, 0x00]
    let listing : Listing := [⟨0, 0x0500, some "vnew", [.var 0x1234, .dataType .u16]⟩,
      ⟨5, 0x00FF, none, []⟩, ⟨7, 0x0001, some "ret", []⟩]
    let options : Options := { format := .text, header := false }
    (disassemble image).value = .ok listing ∧
    ∃ first second third : List Char,
      (render options image).value.output.toList.splitOn '\n' = [first, second, third, []] ∧
      Terminal.ReadsBack ⟨5, 0x00FF, none, []⟩ second ∧
      Terminal.numberAt second 0 = 5 ∧
      Terminal.numberAt third 0 +
        (instructionLength (Terminal.numberAt third 1).toUInt16).value = 9 := by
  intro image listing options
  have hvalue : (disassemble image).value = .ok listing := by
    simp only [image, listing]
    with_unfolding_all rfl
  have hcolumns : ∀ column, options.columns.shows column = true := by
    intro column
    cases column <;> decide
  obtain ⟨lines, hsplit, hread, -, -, hlast⟩ :=
    text_lines_read_back options image listing rfl rfl hcolumns hvalue
  obtain ⟨first, _, -, htwo, rfl⟩ := List.forall₂_cons_left_iff.mp hread
  obtain ⟨second, _, hsecond, hone, rfl⟩ := List.forall₂_cons_left_iff.mp htwo
  obtain ⟨third, _, -, hnone, rfl⟩ := List.forall₂_cons_left_iff.mp hone
  obtain rfl := List.forall₂_nil_left_iff.mp hnone
  obtain ⟨digits, hfield, -, -, hdigits⟩ := hsecond.address
  refine ⟨hvalue, first, second, third, hsplit, hsecond, ?_, hlast third rfl⟩
  rw [Terminal.numberAt, hfield]
  exact hdigits

end Disassembly
