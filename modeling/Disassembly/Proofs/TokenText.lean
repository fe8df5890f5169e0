import Disassembly.Proofs.LineByLine
import Disassembly.Proofs.Losslessness

/-!
# The text of tokens

Numerals can be read back: `Hex.read` gives the number that a numeral was made from. A
word is written with four digits, so it is also seen where its numeral ends
(`Hex.numeral_append_inj`).

The characters that give a text its layout, such as tabs, line feeds, angle brackets
and the escape character, never come from the tokens of an instruction
(`Instruction.WellFormed.clean_body`). What stands in a listing between two of them is
a token.
-/

namespace Disassembly

/-! ### Numerals -/

namespace Hex

def digitValue (c : Char) : Nat :=
  if c.toNat < 58 then c.toNat - 48 else c.toNat - 55

/-- The number that digits stand for, the most significant first. -/
def read (text : List Char) : Nat :=
  text.foldl (fun value c => 16 * value + digitValue c) 0

theorem digit_facts : ∀ d < 16, digitValue (digit d) = d ∧ digit d ∈ "0123456789ABCDEF".toList := by
  decide

theorem read_digits (n : Nat) : read (digits n) = n := by
  fun_induction digits n with
  | case1 n h => simp [read, (digit_facts n h).1]
  | case2 n h ih =>
    have hlast := (digit_facts (n % 16) (by omega)).1
    rw [read] at ih ⊢
    rw [List.foldl_append, ih]
    simp only [List.foldl_cons, List.foldl_nil, hlast]
    omega

theorem read_replicate_zero_append (count : Nat) (text : List Char) :
    read (List.replicate count '0' ++ text) = read text := by
  induction count with
  | zero => rfl
  | succ count ih => exact ih

theorem read_numeral (width n : Nat) : read (numeral width n).toList = n := by
  rw [numeral, String.toList_ofList, List.leftpad, read_replicate_zero_append, read_digits]

theorem mem_numeral {width n : Nat} {c : Char} (h : c ∈ (numeral width n).toList) :
    c ∈ "0123456789ABCDEF".toList := by
  rw [numeral, String.toList_ofList, List.leftpad, List.mem_append] at h
  rcases h with h | h
  · rw [List.eq_of_mem_replicate h]
    decide
  · fun_induction digits n with
    | case1 n hn =>
      rw [List.mem_singleton.mp h]
      exact (digit_facts n hn).2
    | case2 n hn ih =>
      rcases List.mem_append.mp h with h | h
      · exact ih h
      · rw [List.mem_singleton.mp h]
        exact (digit_facts (n % 16) (by omega)).2

theorem length_digits_le {width n : Nat} (h : n < 16 ^ (width + 1)) :
    (digits n).length ≤ width + 1 := by
  induction width generalizing n with
  | zero =>
    rw [digits, if_pos (by simpa using h)]
    simp
  | succ width ih =>
    rw [digits]
    split
    · simp
    · have hdiv : n / 16 < 16 ^ (width + 1) := by
        rw [Nat.pow_succ] at h
        omega
      simpa using ih hdiv

theorem length_numeral_word (word : UInt16) : (numeral 4 word.toNat).toList.length = 4 := by
  have hlength : (digits word.toNat).length ≤ 3 + 1 := length_digits_le word.toNat_lt
  rw [numeral, String.toList_ofList, List.length_leftpad]
  omega

/-- Behind a word that is written with four digits one can go on reading. -/
theorem numeral_append_inj {a b : UInt16} {rest rest' : List Char}
    (h : (numeral 4 a.toNat).toList ++ rest = (numeral 4 b.toNat).toList ++ rest') :
    a = b ∧ rest = rest' := by
  have hlength := (length_numeral_word a).trans (length_numeral_word b).symm
  obtain ⟨hdigits, hrest⟩ := List.append_inj h hlength
  refine ⟨UInt16.toNat_inj.mp ?_, hrest⟩
  rw [← read_numeral 4 a.toNat, hdigits, read_numeral]

end Hex

/-! ### Clean text -/

/-- The characters that tabulate lines, delimit tags or switch colours. -/
def layoutCharacters : List Char := ['\t', '\n', '<', '>', '\x1b']

/-- There is something to see, and it is free of layout. -/
def Clean (text : String) : Prop :=
  text ≠ "" ∧ ∀ c ∈ text.toList, c ∉ layoutCharacters

instance (text : String) : Decidable (Clean text) :=
  -- Only the characters of the text are looked at, not all that there are.
  have : Decidable (∀ c ∈ text.toList, c ∉ layoutCharacters) := List.decidableBAll _ _
  inferInstanceAs (Decidable (text ≠ "" ∧ ∀ c ∈ text.toList, c ∉ layoutCharacters))

theorem Clean.append {first second : String} (hfirst : Clean first) (hsecond : Clean second) :
    Clean (first ++ second) := by
  refine ⟨?_, ?_⟩
  · intro hempty
    exact hfirst.1 (String.append_eq_empty_iff.mp hempty).1
  · intro c hc
    rw [String.toList_append, List.mem_append] at hc
    rcases hc with hc | hc
    · exact hfirst.2 c hc
    · exact hsecond.2 c hc

theorem Clean.not_mem {text : String} {c : Char} (h : Clean text) (hc : c ∈ layoutCharacters) :
    c ∉ text.toList :=
  fun hmem => h.2 c hmem hc

theorem Clean.head?_append_ne {text : String} {c : Char} (h : Clean text)
    (hc : c ∈ layoutCharacters) (rest : List Char) : (text.toList ++ rest).head? ≠ some c := by
  intro hhead
  cases htext : text.toList with
  | nil => exact h.1 (String.toList_eq_nil_iff.mp htext)
  | cons first others =>
    rw [htext] at hhead
    cases hhead
    exact h.not_mem hc (by rw [htext]; exact List.mem_cons_self)

theorem clean_numeral (width n : Nat) : Clean (Hex.numeral width n) := by
  refine ⟨?_, ?_⟩
  · intro hempty
    have hdigits : Hex.digits n = [] := by
      have htext := congrArg String.toList hempty
      rw [Hex.numeral, String.toList_ofList, List.leftpad, String.toList_empty] at htext
      exact (List.append_eq_nil_iff.mp htext).2
    rw [Hex.digits] at hdigits
    split at hdigits <;> simp at hdigits
  · intro c hc
    have hdigits : Clean "0123456789ABCDEF" := by decide
    exact hdigits.2 c (Hex.mem_numeral hc)

theorem clean_variableName (id : UInt16) : Clean (variableName id) :=
  Clean.append (by decide) (clean_numeral 4 id.toNat)

theorem Unknown.clean_text (what : Unknown) : Clean what.text := by
  cases what with
  | opcode => exact (by decide : Clean "unknown")
  | dataType => exact (by decide : Clean "UNKNOWN TYPE")
  | offsetTag => exact (by decide : Clean "UNKNOWN_DATA")

theorem OffsetSide.clean_token (side : OffsetSide) : Clean side.token.text := by
  cases side with
  | literal value => exact clean_numeral 4 value.toNat
  | var id => exact clean_variableName id
  | address id => exact Clean.append (by decide) (clean_variableName id)
  | unknown tag data => exact Unknown.clean_text (.offsetTag tag)

theorem DataType.clean_token (type : DataType) : Clean type.token.text := by
  cases type with
  | u8 => exact (by decide : Clean "u8")
  | u16 => exact (by decide : Clean "u16")
  | i16 => exact (by decide : Clean "i16")
  | void => exact (by decide : Clean "void")
  | unknown byte => exact Unknown.clean_text (.dataType byte)

theorem OffsetOperator.clean_symbol (operator : OffsetOperator) : Clean operator.symbol := by
  cases operator <;> decide

theorem Operand.clean_tokens (operand : Operand) :
    ∀ token ∈ operand.tokens, Clean token.text := by
  have hpunctuation : Clean "[" ∧ Clean "]" ∧ Clean "*" := by decide
  obtain ⟨hopen, hclose, hstar⟩ := hpunctuation
  cases operand with
  | literal value width => simpa [tokens, Token.text] using clean_numeral _ _
  | var id => simpa [tokens, Token.text] using clean_variableName id
  | address id => simpa [tokens, Token.text] using Clean.append (by decide) (clean_variableName id)
  | popped => simpa [tokens, Token.text] using (by decide : Clean "pop")
  | offset expr =>
    have hsides := And.intro expr.lhs.clean_token expr.rhs.clean_token
    simpa [tokens, OffsetExpr.tokens] using
      ⟨hopen, hsides.1, expr.operator.clean_symbol, hsides.2, hclose⟩
  | location value => simpa [tokens, Token.text, Token.word] using clean_numeral 4 value.toNat
  | deref id => simpa [tokens] using ⟨hstar, clean_variableName id⟩
  | dataType type => simpa [tokens] using type.clean_token

theorem Instruction.WellFormed.clean_head {i : Instruction} (h : i.WellFormed) :
    Clean i.head.text := by
  have hnames : ∀ row ∈ opcodeTable, Clean row.2.mnemonic := by decide
  have hmnemonic := h.mnemonic_eq
  unfold Instruction.head
  split
  · rename_i mnemonic hsome
    rw [hsome] at hmnemonic
    obtain ⟨form, hform, rfl⟩ := Option.map_eq_some_iff.mp hmnemonic.symm
    exact hnames _ (mem_opcodeTable_of_lookup hform)
  · exact Unknown.clean_text .opcode

/-- Behind its columns and in front of its line break, an instruction has nothing but
    clean tokens. -/
theorem Instruction.WellFormed.clean_body {i : Instruction} (h : i.WellFormed) :
    ∀ token ∈ i.body, Clean token.text := by
  intro token htoken
  rcases List.mem_cons.mp htoken with rfl | htoken
  · exact h.clean_head
  · rcases mem_intercalate_comma htoken with rfl | ⟨group, hgroup, hmem⟩
    · exact (by decide : Clean ",")
    · obtain ⟨operand, -, rfl⟩ := List.mem_map.mp hgroup
      exact operand.clean_tokens token hmem

end Disassembly
