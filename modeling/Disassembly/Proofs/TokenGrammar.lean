import Disassembly.Proofs.TokenText

/-!
# The grammar of a token stream

A listing is handed over as one flat stream of tokens, and whoever reads it finds lines
and columns by the tokens alone. This works because the stream has a grammar. A line
break ends every line and stands nowhere else, so cutting the stream at line breaks gives
one segment for each instruction (`Listing.splitOn_tokens`). A segment consists of the
address, the opcode, the mnemonic and the operands, each operand is one of the groups of
`OperandGroup`, and no group has a comma in it, so cutting at commas gives the operands.

That a keyword behind the mnemonic is the last token of its line is a fact about the
opcode table: only the last operand of a form is taken from the stack
(`opcodeTable_popped_last`).
-/

namespace Disassembly

/-! ### Cutting at marks -/

/-- Segments that end in a mark are found again by cutting at the mark, and nothing is
    left behind the last of them. -/
theorem splitOn_flatMap_append {α : Type} [BEq α] [LawfulBEq α] {mark : α}
    {segments : List (List α)} (h : ∀ segment ∈ segments, mark ∉ segment) :
    (segments.flatMap (· ++ [mark])).splitOn mark = segments ++ [[]] := by
  induction segments with
  | nil => rfl
  | cons segment segments ih =>
    obtain ⟨hfirst, hothers⟩ := List.forall_mem_cons.mp h
    rw [List.flatMap_cons, List.append_assoc, List.singleton_append,
      List.splitOn_append_cons_self_of_not_mem hfirst, ih hothers, List.cons_append]

/-- Every group of tokens but the last has a comma behind it. -/
theorem intercalate_comma_concat (groups : List (List Token)) (group : List Token) :
    List.intercalate [Token.comma] (groups ++ [group]) =
      groups.flatMap (· ++ [Token.comma]) ++ group := by
  induction groups with
  | nil => simp
  | cons first groups ih =>
    obtain ⟨second, others, hcons⟩ := List.exists_cons_of_ne_nil (List.concat_ne_nil group groups)
    rw [List.cons_append, hcons, List.intercalate_cons_cons, ← hcons, ih, List.flatMap_cons]
    simp

theorem count_comma_flatMap {groups : List (List Token)}
    (h : ∀ group ∈ groups, Token.comma ∉ group) :
    (groups.flatMap (Token.comma :: ·)).count .comma = groups.length := by
  induction groups with
  | nil => rfl
  | cons group groups ih =>
    obtain ⟨hfirst, hothers⟩ := List.forall_mem_cons.mp h
    rw [List.flatMap_cons, List.count_append, List.count_cons_self, List.count_eq_zero.mpr hfirst,
      ih hothers, List.length_cons]
    omega

/-! ### Operands -/

/-- One side of an offset expression. -/
inductive SideToken : Token → Prop where
  | number {value : UInt16} : SideToken (.hex value 4)
  | var {id : UInt16} : SideToken (.var id)
  | varAddress {id : UInt16} : SideToken (.varAddress id)
  | unknown {tag : UInt8} (h : 2 < tag) : SideToken (.unknown (.offsetTag tag))

/-- The tokens of an operand: a single one, a variable behind a star, or an offset
    expression between square brackets. -/
inductive OperandGroup : List Token → Prop where
  | number {value : UInt16} : OperandGroup [.hex value 4]
  | var {id : UInt16} : OperandGroup [.var id]
  | varAddress {id : UInt16} : OperandGroup [.varAddress id]
  | popped : OperandGroup [.keyword "pop"]
  | typeName {name : String} (h : name ∈ ["u8", "u16", "i16", "void"]) :
      OperandGroup [.typeName name]
  | unknownType {byte : UInt8} (h : 3 < byte) : OperandGroup [.unknown (.dataType byte)]
  | starred {id : UInt16} : OperandGroup [.punctuation "*", .var id]
  | bracketed {lhs rhs : Token} {symbol : String} (hlhs : SideToken lhs)
      (hsymbol : symbol ∈ ["+", "-"]) (hrhs : SideToken rhs) :
      OperandGroup [.punctuation "[", lhs, .punctuation symbol, rhs, .punctuation "]"]

theorem OffsetSide.WellFormed.sideToken {side : OffsetSide} (h : side.WellFormed) :
    SideToken side.token := by
  cases side with
  | literal value => exact .number
  | var id => exact .var
  | address id => exact .varAddress
  | unknown tag data => exact .unknown h

theorem Operand.WellFormed.operandGroup {operand : Operand} (h : operand.WellFormed) :
    OperandGroup operand.tokens := by
  cases operand with
  | literal value width =>
    obtain rfl : width = 2 := h
    exact .number
  | var id => exact .var
  | address id => exact .varAddress
  | popped => exact .popped
  | offset expr =>
    refine .bracketed h.1.sideToken ?_ h.2.sideToken
    cases expr.operator <;> decide
  | location value => exact .number
  | deref id => exact .starred
  | dataType type =>
    cases type with
    | u8 | u16 | i16 | void => exact .typeName (by decide)
    | unknown byte => exact .unknownType h

theorem SideToken.ne_punctuation {token : Token} (h : SideToken token) (text : String) :
    .punctuation text ≠ token := by
  cases h <;> simp

theorem OperandGroup.comma_not_mem {group : List Token} (h : OperandGroup group) :
    Token.comma ∉ group := by
  cases h with
  | number | var | varAddress | popped | typeName | unknownType | starred => simp [Token.comma]
  | @bracketed lhs rhs symbol hlhs hsymbol hrhs =>
    have hcomma : "," ≠ symbol := by
      rintro rfl
      exact absurd hsymbol (by decide)
    simp [Token.comma, hlhs.ne_punctuation, hrhs.ne_punctuation, hcomma]

/-- Numbers have four digits, and a byte that is marked as unknown has no meaning. -/
def Token.Proper : Token → Prop
  | hex _ width => width = 4
  | unknown (.dataType byte) => 3 < byte
  | unknown (.offsetTag tag) => 2 < tag
  | _ => True

theorem SideToken.proper {token : Token} (h : SideToken token) : token.Proper := by
  cases h with
  | number => rfl
  | var | varAddress => trivial
  | unknown habove => exact habove

theorem OperandGroup.proper {group : List Token} (h : OperandGroup group) :
    ∀ token ∈ group, token.Proper := by
  cases h with
  | number | var | varAddress | popped | typeName | starred => simp [Token.Proper]
  | unknownType habove => simpa [Token.Proper] using habove
  | bracketed hlhs hsymbol hrhs =>
    have hsides := And.intro hlhs.proper hrhs.proper
    simpa [Token.Proper] using hsides

/-- A keyword among the operands comes from an operand that is taken from the stack. -/
theorem Operand.keyword_not_mem_tokens {operand : Operand} (h : operand.kind ≠ .popped)
    (name : String) : Token.keyword name ∉ operand.tokens := by
  cases operand with
  | literal | var | address | location | deref => simp [tokens, Token.word]
  | popped => exact absurd rfl h
  | offset expr =>
    obtain ⟨lhs, operator, rhs⟩ := expr
    cases lhs <;> cases rhs <;> simp [tokens, OffsetExpr.tokens, OffsetSide.token, Token.word]
  | dataType type => cases type <;> simp [tokens, DataType.token, DataType.name?]

theorem Operand.tokens_ne_nil (operand : Operand) : operand.tokens ≠ [] := by
  cases operand <;> simp [tokens, OffsetExpr.tokens]

/-! ### Lines -/

namespace Instruction

/-- The tokens of the operands, with a comma between two of them. -/
def operandTokens (i : Instruction) : List Token :=
  List.intercalate [.comma] (i.operands.map Operand.tokens)

theorem operandTokens_concat {i : Instruction} {front : List Operand} {last : Operand}
    (h : i.operands = front ++ [last]) :
    i.operandTokens =
      front.flatMap (fun operand => operand.tokens ++ [Token.comma]) ++ last.tokens := by
  rw [operandTokens, h, List.map_append, List.map_singleton, intercalate_comma_concat,
    List.flatMap_map]

/-- The tokens of a line in front of its line break. -/
def segment (i : Instruction) : List Token :=
  .word i.address :: .word i.opcode :: i.head :: i.operandTokens

theorem line_eq_segment (i : Instruction) : i.line = i.segment ++ [.lineBreak] := rfl

theorem lineBreak_not_mem_segment (i : Instruction) : Token.lineBreak ∉ i.segment := by
  have hbody := i.lineBreak_not_mem_body
  intro hmem
  rcases List.mem_cons.mp hmem with hword | hmem
  · cases hword
  · rcases List.mem_cons.mp hmem with hword | hmem
    · cases hword
    · exact hbody hmem

/-- A line of a listing, as far as its tokens go. -/
structure LineShape (i : Instruction) (segment : List Token) : Prop where
  known : ∀ mnemonic, i.mnemonic = some mnemonic →
    segment = [.hex i.address 4, .hex i.opcode 4, .keyword mnemonic] ++
      List.intercalate [.punctuation ","] (i.operands.map Operand.tokens)
  unknown : i.mnemonic = none →
    segment = [.hex i.address 4, .hex i.opcode 4, .unknown .opcode]
  groups : ∀ operand ∈ i.operands, OperandGroup operand.tokens
  commas : segment.count (.punctuation ",") = i.operands.length - 1
  operands : i.operands ≠ [] →
    (segment.drop 3).splitOn (.punctuation ",") = i.operands.map Operand.tokens
  keywords : ∀ name, Token.keyword name ∉ (segment.drop 3).dropLast

end Instruction

/-- Only the last operand of a form is taken from the stack. -/
theorem opcodeTable_popped_last :
    ∀ row ∈ opcodeTable, OperandKind.popped ∉ row.2.kinds.dropLast := by
  decide

namespace Instruction.WellFormed

variable {i : Instruction}

theorem operandGroup (h : i.WellFormed) :
    ∀ group ∈ i.operands.map Operand.tokens, OperandGroup group := by
  intro group hgroup
  obtain ⟨operand, hoperand, rfl⟩ := List.mem_map.mp hgroup
  exact (h.operands operand hoperand).operandGroup

theorem operands_eq_nil (h : i.WellFormed) (hmnemonic : i.mnemonic = none) : i.operands = [] := by
  have hrow := h.mnemonic_eq
  rw [hmnemonic] at hrow
  have hkinds := h.kinds_eq
  rw [Option.map_eq_none_iff.mp hrow.symm] at hkinds
  exact List.map_eq_nil_iff.mp hkinds

theorem kind_ne_popped (h : i.WellFormed) :
    ∀ operand ∈ i.operands.dropLast, operand.kind ≠ .popped := by
  intro operand hoperand hkind
  have hmem : OperandKind.popped ∈ (i.operands.map Operand.kind).dropLast := by
    rw [← List.map_dropLast, List.mem_map]
    exact ⟨operand, hoperand, hkind⟩
  rw [h.kinds_eq] at hmem
  cases hrow : opcodeTable.lookup i.opcode with
  | none => simp [hrow] at hmem
  | some form =>
    rw [hrow] at hmem
    exact opcodeTable_popped_last _ (mem_opcodeTable_of_lookup hrow) hmem

/-- Behind the mnemonic only the last token of a line can be a keyword. -/
theorem keyword_not_mem (h : i.WellFormed) (name : String) :
    Token.keyword name ∉ i.operandTokens.dropLast := by
  rcases List.eq_nil_or_concat i.operands with hnil | ⟨front, last, hconcat⟩
  · simp [operandTokens, hnil]
  · rw [List.concat_eq_append] at hconcat
    have hfront := h.kind_ne_popped
    rw [hconcat, List.dropLast_concat] at hfront
    rw [operandTokens_concat hconcat, List.dropLast_append_of_ne_nil last.tokens_ne_nil,
      List.mem_append, List.mem_flatMap]
    rintro (⟨operand, hoperand, hmem⟩ | hmem)
    · rcases List.mem_append.mp hmem with hmem | hcomma
      · exact Operand.keyword_not_mem_tokens (hfront operand hoperand) name hmem
      · exact absurd (List.mem_singleton.mp hcomma) (by simp [Token.comma])
    · by_cases hkind : last.kind = .popped
      · cases last <;> cases hkind
        cases hmem
      · exact Operand.keyword_not_mem_tokens hkind name (List.dropLast_subset _ hmem)

theorem splitOn_operandTokens (h : i.WellFormed) (hoperands : i.operands ≠ []) :
    i.operandTokens.splitOn .comma = i.operands.map Operand.tokens := by
  apply List.splitOn_intercalate
  · intro group hgroup
    exact (h.operandGroup group hgroup).comma_not_mem
  · exact mt List.map_eq_nil_iff.mp hoperands

theorem count_comma_operandTokens (h : i.WellFormed) :
    i.operandTokens.count .comma = i.operands.length - 1 := by
  have hgroups := h.operandGroup
  unfold operandTokens
  cases hoperands : i.operands with
  | nil => rfl
  | cons first others =>
    rw [hoperands, List.map_cons, List.forall_mem_cons] at hgroups
    obtain ⟨hfirst, hothers⟩ := hgroups
    have hcount := count_comma_flatMap fun group hgroup => (hothers group hgroup).comma_not_mem
    rw [List.map_cons, intercalate_comma_cons, List.count_append,
      List.count_eq_zero.mpr hfirst.comma_not_mem, hcount, List.length_map, List.length_cons]
    omega

theorem lineShape (h : i.WellFormed) : i.LineShape i.segment where
  known mnemonic hmnemonic := by
    rw [segment, head, hmnemonic]
    rfl
  unknown hmnemonic := by
    rw [segment, head, hmnemonic, operandTokens, h.operands_eq_nil hmnemonic]
    rfl
  groups operand hoperand := (h.operands operand hoperand).operandGroup
  commas := by
    have hhead : i.head ≠ .comma := by
      unfold head
      split <;> simp [Token.comma]
    have hword (word : UInt16) : Token.word word ≠ .comma := by simp [Token.word, Token.comma]
    change i.segment.count .comma = _
    rw [segment, List.count_cons_of_ne (hword _), List.count_cons_of_ne (hword _),
      List.count_cons_of_ne hhead, h.count_comma_operandTokens]
  operands := h.splitOn_operandTokens
  keywords := h.keyword_not_mem

/-- Every token of a line is proper. -/
theorem proper_line (h : i.WellFormed) : ∀ token ∈ i.line, token.Proper := by
  intro token hmem
  rw [line_eq_segment, segment] at hmem
  simp only [List.cons_append, List.mem_cons, List.mem_append, List.not_mem_nil, or_false] at hmem
  rcases hmem with rfl | rfl | rfl | hmem | rfl
  · rfl
  · rfl
  · unfold head
    split <;> trivial
  · rcases mem_intercalate_comma hmem with rfl | ⟨group, hgroup, htoken⟩
    · trivial
    · exact (h.operandGroup group hgroup).proper token htoken
  · trivial

end Instruction.WellFormed

/-! ### Listings -/

theorem Listing.splitOn_tokens (listing : Listing) :
    listing.tokens.splitOn .lineBreak = listing.map Instruction.segment ++ [[]] := by
  have htokens : listing.tokens =
      (listing.map Instruction.segment).flatMap (· ++ [.lineBreak]) := by
    rw [List.flatMap_map]
    rfl
  rw [htokens]
  apply splitOn_flatMap_append
  intro segment hsegment
  obtain ⟨i, -, rfl⟩ := List.mem_map.mp hsegment
  exact i.lineBreak_not_mem_segment

theorem Listing.proper_tokens {listing : Listing} (h : ∀ i ∈ listing, i.WellFormed) :
    ∀ token ∈ listing.tokens, token.Proper := by
  intro token htoken
  obtain ⟨i, hi, hline⟩ := List.mem_flatMap.mp htoken
  exact (h i hi).proper_line token hline

/-- The grammar of the token stream. The tokens of an image that has a listing, cut at
    line breaks, give one segment for each instruction in order, and behind the last line
    break nothing is left. A segment holds the address and the opcode with four digits
    each, then the mnemonic and the groups of the operands with one comma between two of
    them and none elsewhere, or the mark of an unknown opcode and nothing more. A keyword
    behind the mnemonic is the last token of its segment. All numbers of the stream have
    four digits, and a type or a tag is only marked as unknown if it has no meaning. -/
theorem token_stream_grammar (image : Image) (listing : Listing)
    (h : (disassemble image).value = .ok listing) :
    listing.tokens.splitOn .lineBreak = listing.map Instruction.segment ++ [[]] ∧
    (∀ i ∈ listing, i.LineShape i.segment) ∧
    (∀ value width, Token.hex value width ∈ listing.tokens → width = 4) ∧
    (∀ byte, Token.unknown (.dataType byte) ∈ listing.tokens → 3 < byte) ∧
    (∀ tag, Token.unknown (.offsetTag tag) ∈ listing.tokens → 2 < tag) := by
  have hwell := wellFormed_of_disassemble h
  have hproper := Listing.proper_tokens hwell
  refine ⟨listing.splitOn_tokens, ?_, ?_, ?_, ?_⟩
  · intro i hi
    exact (hwell i hi).lineShape
  · intro value width hmem
    exact hproper _ hmem
  · intro byte hmem
    exact hproper _ hmem
  · intro tag hmem
    exact hproper _ hmem

/-- An unknown opcode, an unknown type, and a move from the stack to an offset expression
    with an unknown tag. -/
theorem token_stream_grammar_segments :
    let image : Image := [0xEE, 0xEE, 0x00, 0x05, 0x34, 0x12, 0x09,
      0x25, 0x11, 0x07, 0x10, 0x00, 0xFF, 0x02, 0x20, 0x00]
    let listing : Listing := [⟨0, 0xEEEE, none, []⟩,
      ⟨2, 0x0500, some "vnew", [.var 0x1234, .dataType (.unknown 0x09)]⟩,
      ⟨7, 0x1125, some "mov", [.offset ⟨.unknown 0x07 0x0010, .add, .address 0x0020⟩, .popped]⟩]
    (disassemble image).value = .ok listing ∧
    listing.tokens.splitOn .lineBreak =
      [[.hex 0 4, .hex 0xEEEE 4, .unknown .opcode],
       [.hex 2 4, .hex 0x0500 4, .keyword "vnew", .var 0x1234, .punctuation ",",
        .unknown (.dataType 0x09)],
       [.hex 7 4, .hex 0x1125 4, .keyword "mov", .punctuation "[", .unknown (.offsetTag 0x07),
        .punctuation "+", .varAddress 0x0020, .punctuation "]", .punctuation ",", .keyword "pop"],
       []] := by
  intro image listing
  have hvalue : (disassemble image).value = .ok listing := by
    simp only [image, listing]
    with_unfolding_all rfl
  obtain ⟨hsegments, -⟩ := token_stream_grammar image listing hvalue
  exact ⟨hvalue, hsegments⟩

end Disassembly
