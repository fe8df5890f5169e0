import Disassembly.Proofs.Colours
import Disassembly.Proofs.Visibility

/-!
# What a rendering determines about its image

A line without markup and colours can be read back from the left: once the opcode is
known, so are the mnemonic and the kinds of the operands, and an operand of a known kind
shows where it ends (`Operand.chars_append_inj`, `Terminal.line_append_inj`). What is
read is the instruction without the values that its line does not show, and the
addresses follow from the opcodes, so a listing is read back even where the addresses
are hidden.

In the other direction, a value that is not shown has no influence on any line. So two
renderings with the opcode column are equal exactly when the bytes of the two images are
shown alike (`rendering_eq_iff_bytes_alike`), in every format and with all other
options.
-/

namespace Disassembly

/-! ### Values that are not shown leave no trace -/

def Unknown.blur : Unknown → Unknown
  | opcode => opcode
  | dataType _ => dataType 0
  | offsetTag _ => offsetTag 0

def Token.blur : Token → Token
  | unknown what => unknown what.blur
  | token => token

theorem OffsetSide.token_blur (side : OffsetSide) : side.blur.token = side.token.blur := by
  cases side <;> rfl

theorem DataType.token_blur (type : DataType) : type.blur.token = type.token.blur := by
  cases type <;> rfl

theorem Operand.tokens_blur (operand : Operand) :
    operand.blur.tokens = operand.tokens.map Token.blur := by
  cases operand with
  | offset expr =>
    simp [blur, tokens, OffsetExpr.tokens, OffsetSide.token_blur, Token.blur]
  | dataType type => simp [blur, tokens, DataType.token_blur]
  | literal | var | address | popped | location | deref => rfl

theorem map_blur_intercalate (groups : List (List Token)) :
    (List.intercalate [Token.comma] groups).map Token.blur =
      List.intercalate [Token.comma] (groups.map (List.map Token.blur)) := by
  cases groups with
  | nil => rfl
  | cons group groups =>
    rw [List.map_cons, intercalate_comma_cons, intercalate_comma_cons]
    simp [List.map_flatMap, List.flatMap_map, Token.comma, Token.blur]

theorem Instruction.body_blur (i : Instruction) : i.blur.body = i.body.map Token.blur := by
  have hhead : i.blur.head = i.head.blur := by
    obtain ⟨address, opcode, mnemonic, operands⟩ := i
    cases mnemonic <;> rfl
  have hgroups : (i.operands.map Operand.blur).map Operand.tokens =
      (i.operands.map Operand.tokens).map (List.map Token.blur) := by
    simp [Operand.tokens_blur]
  rw [body, body, hhead, List.map_cons, map_blur_intercalate, ← hgroups]
  rfl

theorem Terminal.bodyLine_blur (tabDue : Bool) (tokens : List Token) :
    bodyLine tabDue (tokens.map Token.blur) = bodyLine tabDue tokens := by
  induction tokens generalizing tabDue with
  | nil => rfl
  | cons token tokens ih =>
    have hfragment : bodyFragment token.blur = bodyFragment token := by
      rcases token with _ | _ | _ | _ | _ | _ | _ | (_ | _ | _) <;> rfl
    have hkeyword : token.blur.isKeyword = token.isKeyword := by
      cases token <;> rfl
    rw [List.map_cons, bodyLine, bodyLine, hfragment, hkeyword, ih]

theorem Terminal.line_blur (columns : Columns) (i : Instruction) :
    line columns i.blur = line columns i := by
  rw [line, line, i.body_blur, bodyLine_blur]
  rfl

theorem Terminal.lineText_blur (options : Options) (i : Instruction) :
    (writer options).lineText i.blur = (writer options).lineText i := by
  rw [lineText_eq, lineText_eq, line_blur]

theorem Page.line_blur (columns : Columns) (i : Instruction) :
    line columns i.blur = line columns i := by
  have hmarkup : ∀ token : Token, bodyMarkup token.blur = bodyMarkup token := by
    intro token
    rcases token with _ | _ | _ | _ | _ | _ | _ | (_ | _ | _) <;> rfl
  rw [line, line, i.body_blur, List.flatMap_map]
  simp only [hmarkup]
  rfl

theorem Page.lineText_blur (options : Options) (i : Instruction) :
    (writer options).lineText i.blur = (writer options).lineText i := by
  rw [lineText_eq, lineText_eq, line_blur]

/-- A writer whose lines do not show what is blurred writes listings alike that blur to
    the same. -/
theorem Writer.map_lineText_eq {σ : Type} {w : Writer σ}
    (hline : ∀ i : Instruction, w.lineText i.blur = w.lineText i) {listing other : Listing}
    (h : listing.map Instruction.blur = other.map Instruction.blur) :
    listing.map w.lineText = other.map w.lineText := by
  have hblur : ∀ l : Listing, (l.map Instruction.blur).map w.lineText = l.map w.lineText := by
    intro l
    rw [List.map_map]
    exact List.map_congr_left fun i _ => hline i
  rw [← hblur listing, ← hblur other, h]

/-! ### Reading operands -/

theorem OffsetSide.isKeyword_token (side : OffsetSide) : side.token.isKeyword = false := by
  cases side <;> rfl

theorem DataType.isKeyword_token (type : DataType) : type.token.isKeyword = false := by
  cases type <;> rfl

namespace OffsetSide

def chars (side : OffsetSide) : List Char := (Terminal.bodyFragment side.token).text.toList

@[simp] theorem chars_literal (value : UInt16) :
    (literal value).chars = '$' :: (Hex.numeral 4 value.toNat).toList := by
  simp [chars, token, Token.word, Terminal.bodyFragment, Terminal.hexFragment, Fragment.text,
    Token.text]

@[simp] theorem chars_var (id : UInt16) :
    (var id).chars = "VAR_".toList ++ (Hex.numeral 4 id.toNat).toList := by
  simp [chars, token, Terminal.bodyFragment, Fragment.text, Token.text, variableName]

@[simp] theorem chars_address (id : UInt16) :
    (address id).chars = "&VAR_".toList ++ (Hex.numeral 4 id.toNat).toList := by
  simp [chars, token, Terminal.bodyFragment, Fragment.text, Token.text, variableName]

@[simp] theorem chars_unknown (tag : UInt8) (data : UInt16) :
    (unknown tag data).chars = "UNKNOWN_DATA".toList := rfl

/-- The first character tells what a side is, and then it is known where it ends. -/
theorem chars_append_inj {side other : OffsetSide} {rest rest' : List Char}
    (h : side.chars ++ rest = other.chars ++ rest') : side.blur = other.blur ∧ rest = rest' := by
  cases side with
  | literal value =>
    cases other with
    | literal value' =>
      obtain ⟨rfl, rfl⟩ := Hex.numeral_append_inj (by simpa using h)
      exact ⟨rfl, rfl⟩
    | var | address | unknown => simp at h
  | var id =>
    cases other with
    | var id' =>
      obtain ⟨rfl, rfl⟩ := Hex.numeral_append_inj (by simpa using h)
      exact ⟨rfl, rfl⟩
    | literal | address | unknown => simp at h
  | address id =>
    cases other with
    | address id' =>
      obtain ⟨rfl, rfl⟩ := Hex.numeral_append_inj (by simpa using h)
      exact ⟨rfl, rfl⟩
    | literal | var | unknown => simp at h
  | unknown tag data =>
    cases other with
    | unknown tag' data' => exact ⟨rfl, List.append_cancel_left h⟩
    | literal | var | address => simp at h

end OffsetSide

theorem DataType.name_append_inj {type other : DataType} {rest rest' : List Char}
    (h : type.token.text.toList ++ rest = other.token.text.toList ++ rest') :
    type.blur = other.blur ∧ rest = rest' := by
  cases type <;> cases other <;> simp_all [token, name?, Token.text, Unknown.text, blur]

namespace Operand

/-- The text of an operand, without colours. -/
def chars (operand : Operand) : List Char :=
  Fragment.chars (Terminal.bodyLine false operand.tokens)

@[simp] theorem chars_literal (value : UInt16) :
    (literal value 2).chars = '$' :: (Hex.numeral 4 value.toNat).toList := by
  simp [chars, tokens, Terminal.bodyLine, Terminal.tab, Terminal.bodyFragment,
    Terminal.hexFragment, Fragment.text, Token.text]

@[simp] theorem chars_var (id : UInt16) :
    (var id).chars = "VAR_".toList ++ (Hex.numeral 4 id.toNat).toList := by
  simp [chars, tokens, Terminal.bodyLine, Terminal.tab, Terminal.bodyFragment, Fragment.text,
    Token.text, variableName]

@[simp] theorem chars_address (id : UInt16) :
    (address id).chars = "&VAR_".toList ++ (Hex.numeral 4 id.toNat).toList := by
  simp [chars, tokens, Terminal.bodyLine, Terminal.tab, Terminal.bodyFragment, Fragment.text,
    Token.text, variableName]

@[simp] theorem chars_location (value : UInt16) :
    (location value).chars = '$' :: (Hex.numeral 4 value.toNat).toList := by
  simp [chars, tokens, Token.word, Terminal.bodyLine, Terminal.tab, Terminal.bodyFragment,
    Terminal.hexFragment, Fragment.text, Token.text]

@[simp] theorem chars_deref (id : UInt16) :
    (deref id).chars = "*VAR_".toList ++ (Hex.numeral 4 id.toNat).toList := by
  simp [chars, tokens, Terminal.bodyLine, Terminal.tab, Terminal.bodyFragment, Fragment.text,
    Token.text, variableName, Token.isKeyword]

@[simp] theorem chars_dataType (type : DataType) :
    (dataType type).chars = type.token.text.toList := by
  cases type <;>
    simp [chars, tokens, DataType.token, DataType.name?, Terminal.bodyLine, Terminal.tab,
      Terminal.bodyFragment, Fragment.text, Token.text]

@[simp] theorem chars_offset (lhs rhs : OffsetSide) (operator : OffsetOperator) :
    (offset ⟨lhs, operator, rhs⟩).chars =
      '[' :: (lhs.chars ++ (operator.symbol.toList ++ (rhs.chars ++ [']']))) := by
  have hsymbol : (Terminal.bodyFragment (.punctuation operator.symbol)).text = operator.symbol := by
    cases operator <;> rfl
  have hopen : (Terminal.bodyFragment (.punctuation "[")).text.toList = ['['] := rfl
  have hclose : (Terminal.bodyFragment (.punctuation "]")).text.toList = [']'] := rfl
  have hkeyword : ∀ text, (Token.punctuation text).isKeyword = false := fun _ => rfl
  simp [chars, tokens, OffsetExpr.tokens, Terminal.bodyLine, Terminal.tab, hkeyword,
    OffsetSide.isKeyword_token, hsymbol, hopen, hclose, OffsetSide.chars]

/-- An operand of a known kind can be read back up to the values that are not shown, and
    it is seen where it ends. -/
theorem chars_append_inj {operand other : Operand} {rest rest' : List Char}
    (hkind : operand.kind = other.kind) (hwell : operand.WellFormed) (hwell' : other.WellFormed)
    (h : operand.chars ++ rest = other.chars ++ rest') :
    operand.blur = other.blur ∧ rest = rest' := by
  cases operand with
  | literal value width =>
    cases other <;> cases hkind
    obtain rfl : width = 2 := hwell
    obtain rfl : _ = (2 : UInt8) := hwell'
    obtain ⟨rfl, rfl⟩ := Hex.numeral_append_inj (by simpa using h)
    exact ⟨rfl, rfl⟩
  | var | address | location | deref =>
    cases other <;> cases hkind
    obtain ⟨rfl, rfl⟩ := Hex.numeral_append_inj (by simpa using h)
    exact ⟨rfl, rfl⟩
  | popped =>
    cases other <;> cases hkind
    exact ⟨rfl, List.append_cancel_left h⟩
  | offset expr =>
    cases other <;> cases hkind
    rename_i expr'
    obtain ⟨lhs, operator, rhs⟩ := expr
    obtain ⟨lhs', operator', rhs'⟩ := expr'
    simp only [chars_offset, List.cons_append, List.append_assoc, List.cons.injEq, true_and] at h
    obtain ⟨hlhs, hoperator⟩ := OffsetSide.chars_append_inj h
    obtain ⟨hsame, hright⟩ : operator = operator' ∧
        rhs.chars ++ ']' :: rest = rhs'.chars ++ ']' :: rest' := by
      cases operator <;> cases operator' <;> simp_all [OffsetOperator.symbol]
    obtain ⟨hrhs, hend⟩ := OffsetSide.chars_append_inj hright
    exact ⟨by rw [blur, blur, hlhs, hsame, hrhs], (List.cons.inj hend).2⟩
  | dataType type =>
    cases other <;> cases hkind
    rw [chars_dataType, chars_dataType] at h
    obtain ⟨htype, hrest⟩ := DataType.name_append_inj h
    exact ⟨by rw [blur, blur, htype], hrest⟩

end Operand

/-! ### Reading lines -/

namespace Terminal

/-- A tab that is due comes before an operand, and one is due behind it if it was popped. -/
theorem chars_bodyLine_operand (tabDue : Bool) (operand : Operand) (tokens : List Token) :
    Fragment.chars (bodyLine tabDue (operand.tokens ++ tokens)) =
      Fragment.chars (tab tabDue) ++ (operand.chars ++
        Fragment.chars (bodyLine (decide (operand.kind = .popped)) tokens)) := by
  have hsplit : bodyLine tabDue (operand.tokens ++ tokens) =
      tab tabDue ++ (bodyLine false operand.tokens ++
        bodyLine (decide (operand.kind = .popped)) tokens) := by
    cases operand with
    | offset expr =>
      simp [Operand.tokens, OffsetExpr.tokens, bodyLine, tab, Operand.kind, Token.isKeyword]
    | dataType type =>
      simp [Operand.tokens, bodyLine, tab, Operand.kind, DataType.isKeyword_token]
    | literal | var | address | popped | location | deref =>
      simp [Operand.tokens, bodyLine, tab, Operand.kind, Token.isKeyword, Token.word]
  rw [hsplit, Fragment.chars_append, Fragment.chars_append, Operand.chars]

theorem chars_bodyLine_comma (tabDue : Bool) (operand : Operand) (tokens : List Token) :
    Fragment.chars (bodyLine tabDue (.comma :: operand.tokens ++ tokens)) =
      Fragment.chars (tab tabDue) ++ (", ".toList ++ (operand.chars ++
        Fragment.chars (bodyLine (decide (operand.kind = .popped)) tokens))) := by
  have hoperand := chars_bodyLine_operand false operand tokens
  rw [List.cons_append, bodyLine, Fragment.chars_append, Fragment.chars_cons]
  exact congrArg _ (congrArg _ hoperand)

/-- Operands of known kinds that have commas in front of them can be read back one after
    the other. -/
theorem commas_append_inj {operands others : List Operand} (tabDue : Bool)
    {rest rest' : List Char} (hkinds : operands.map Operand.kind = others.map Operand.kind)
    (hwell : ∀ operand ∈ operands, operand.WellFormed)
    (hwell' : ∀ operand ∈ others, operand.WellFormed)
    (h : Fragment.chars (bodyLine tabDue
          ((operands.map Operand.tokens).flatMap (Token.comma :: ·))) ++ rest =
        Fragment.chars (bodyLine tabDue
          ((others.map Operand.tokens).flatMap (Token.comma :: ·))) ++ rest') :
    operands.map Operand.blur = others.map Operand.blur ∧ rest = rest' := by
  induction operands generalizing others tabDue with
  | nil =>
    obtain rfl : others = [] := by simpa using hkinds.symm
    exact ⟨rfl, h⟩
  | cons operand operands ih =>
    obtain ⟨other, others, rfl, hkind, hkinds⟩ := List.map_eq_cons_iff.mp hkinds.symm
    obtain ⟨hfirst, hrest⟩ := List.forall_mem_cons.mp hwell
    obtain ⟨hfirst', hrest'⟩ := List.forall_mem_cons.mp hwell'
    rw [List.map_cons, List.map_cons, List.flatMap_cons, List.flatMap_cons,
      chars_bodyLine_comma, chars_bodyLine_comma, hkind] at h
    simp only [List.append_assoc, List.append_cancel_left_eq] at h
    obtain ⟨hblur, h⟩ := Operand.chars_append_inj hkind.symm hfirst hfirst' h
    obtain ⟨hblurs, h⟩ := ih _ hkinds.symm hrest hrest' h
    exact ⟨by rw [List.map_cons, List.map_cons, hblur, hblurs], h⟩

theorem operands_append_inj {operands others : List Operand} (tabDue : Bool)
    {rest rest' : List Char} (hkinds : operands.map Operand.kind = others.map Operand.kind)
    (hwell : ∀ operand ∈ operands, operand.WellFormed)
    (hwell' : ∀ operand ∈ others, operand.WellFormed)
    (h : Fragment.chars (bodyLine tabDue
          (List.intercalate [.comma] (operands.map Operand.tokens))) ++ rest =
        Fragment.chars (bodyLine tabDue
          (List.intercalate [.comma] (others.map Operand.tokens))) ++ rest') :
    operands.map Operand.blur = others.map Operand.blur ∧ rest = rest' := by
  cases operands with
  | nil =>
    obtain rfl : others = [] := by simpa using hkinds.symm
    exact ⟨rfl, h⟩
  | cons operand operands =>
    obtain ⟨other, others, rfl, hkind, hkinds⟩ := List.map_eq_cons_iff.mp hkinds.symm
    obtain ⟨hfirst, hrest⟩ := List.forall_mem_cons.mp hwell
    obtain ⟨hfirst', hrest'⟩ := List.forall_mem_cons.mp hwell'
    rw [List.map_cons, List.map_cons, intercalate_comma_cons, intercalate_comma_cons,
      chars_bodyLine_operand, chars_bodyLine_operand, hkind] at h
    simp only [List.append_assoc, List.append_cancel_left_eq] at h
    obtain ⟨hblur, h⟩ := Operand.chars_append_inj hkind.symm hfirst hfirst' h
    obtain ⟨hblurs, h⟩ := commas_append_inj _ hkinds.symm hrest hrest' h
    exact ⟨by rw [List.map_cons, List.map_cons, hblur, hblurs], h⟩

/-- A line that shows its opcode can be read back, if it is known where it stands. -/
theorem line_append_inj {columns : Columns} {i j : Instruction} {rest rest' : List Char}
    (hcolumn : columns.shows .opcode = true) (hi : i.WellFormed) (hj : j.WellFormed)
    (haddress : i.address = j.address)
    (h : Fragment.chars (line columns i) ++ rest = Fragment.chars (line columns j) ++ rest') :
    i.blur = j.blur ∧ rest = rest' := by
  have hline : ∀ k : Instruction, ∀ text : List Char,
      Fragment.chars (line columns k) ++ text =
        Fragment.chars (cell columns .address (.word k.address)) ++
          ('$' :: ((Hex.numeral 4 k.opcode.toNat).toList ++
            ('\t' :: ((bodyFragment k.head).text.toList ++
              (Fragment.chars (bodyLine k.head.isKeyword
                (List.intercalate [.comma] (k.operands.map Operand.tokens))) ++
                ('\n' :: text)))))) := by
    intro k text
    simp [line, cell, hcolumn, hexFragment, Fragment.text, Token.text, Token.word,
      Instruction.body, bodyLine, tab]
  rw [hline, hline, haddress, List.append_cancel_left_eq] at h
  obtain ⟨hopcode, h⟩ := Hex.numeral_append_inj (List.cons.inj h).2
  have hmnemonic : i.mnemonic = j.mnemonic := by
    rw [hi.mnemonic_eq, hj.mnemonic_eq, hopcode]
  have hhead : i.head = j.head := by
    rw [Instruction.head, Instruction.head, hmnemonic]
  have hkinds : i.operands.map Operand.kind = j.operands.map Operand.kind := by
    rw [hi.kinds_eq, hj.kinds_eq, hopcode]
  rw [hhead, List.cons.injEq, List.append_cancel_left_eq] at h
  obtain ⟨hoperands, h⟩ := operands_append_inj _ hkinds hi.operands hj.operands h.2
  refine ⟨?_, (List.cons.inj h).2⟩
  rw [Instruction.blur, Instruction.blur, haddress, hopcode, hmnemonic, hoperands]

/-- Listings that begin at the same address are read back from their lines. Where the
    next line stands is known from the opcode of the one before. -/
theorem blur_eq_of_chars_eq {columns : Columns} {listing other : Listing} {position : Nat}
    {bytes bytes' : Image} (hcolumn : columns.shows .opcode = true)
    (h : listing.Fills position bytes) (h' : other.Fills position bytes')
    (heq : Fragment.chars (listing.flatMap (line columns)) =
      Fragment.chars (other.flatMap (line columns))) :
    listing.map Instruction.blur = other.map Instruction.blur := by
  have hne : ∀ (k : Instruction) (text : List Char),
      Fragment.chars (line columns k) ++ text ≠ [] := by
    intro k text
    simp [line, Fragment.text]
  induction h generalizing other bytes' with
  | nil =>
    cases h' with
    | nil => rfl
    | cons =>
      rw [List.flatMap_cons, Fragment.chars_append] at heq
      exact absurd heq.symm (hne _ _)
  | @cons i listing bytes rest hspelled hrest ih =>
    generalize hposition : i.address.toNat = position at h'
    cases h' with
    | nil =>
      rw [List.flatMap_cons, Fragment.chars_append] at heq
      exact absurd heq (hne _ _)
    | @cons j other bytes' rest' hspelled' hrest' =>
      have haddress : i.address = j.address := UInt16.toNat_inj.mp hposition
      rw [List.flatMap_cons, List.flatMap_cons, Fragment.chars_append,
        Fragment.chars_append] at heq
      obtain ⟨hblur, htail⟩ :=
        line_append_inj hcolumn hspelled.wellFormed hspelled'.wellFormed haddress heq
      have hopcode : i.blur.opcode = j.blur.opcode := by rw [hblur]
      have hlength : bytes.length = bytes'.length := by
        rw [hspelled.length_eq, hspelled'.length_eq, show i.opcode = j.opcode from hopcode]
      rw [← hposition, ← hlength] at hrest'
      rw [List.map_cons, List.map_cons, hblur, ih hrest' htail]

end Terminal

/-! ### Reading renderings -/

section Outputs

variable {options : Options} {a b : Image} {listing other : Listing}

theorem Terminal.lines_eq_iff (hcolumn : options.columns.shows .opcode = true)
    (h : listing.Fills 0 a) (h' : other.Fills 0 b) :
    String.join (listing.map (writer options).lineText) =
        String.join (other.map (writer options).lineText) ↔
      listing.map Instruction.blur = other.map Instruction.blur := by
  constructor
  · intro heq
    apply blur_eq_of_chars_eq hcolumn h h'
    rw [← deleteSpans_lines options h.wellFormed.1, ← deleteSpans_lines options h'.wellFormed.1,
      heq]
  · intro hblur
    rw [Writer.map_lineText_eq (lineText_blur options) hblur]

theorem Page.lines_eq_iff (hcolumn : options.columns.shows .opcode = true)
    (h : listing.Fills 0 a) (h' : other.Fills 0 b) :
    String.join (listing.map (writer options).lineText) =
        String.join (other.map (writer options).lineText) ↔
      listing.map Instruction.blur = other.map Instruction.blur := by
  constructor
  · intro heq
    have hplain : (listing.flatMap (line options.columns)).flatMap Markup.plain =
        (other.flatMap (line options.columns)).flatMap Markup.plain := by
      have hstrip := strip_lines options h.wellFormed.1 []
      rw [heq, strip_lines options h'.wellFormed.1 []] at hstrip
      exact (List.append_cancel_right hstrip).symm
    have htext := dropTabs_listing options.columns h.wellFormed.1 []
    rw [hplain, dropTabs_listing options.columns h'.wellFormed.1 []] at htext
    exact Terminal.blur_eq_of_chars_eq hcolumn h h' (List.append_cancel_right htext).symm
  · intro hblur
    rw [Writer.map_lineText_eq (lineText_blur options) hblur]

theorem output_eq_iff_blur_eq (hcolumn : options.columns.shows .opcode = true)
    (ha : (disassemble a).value = .ok listing) (hb : (disassemble b).value = .ok other) :
    (render options a).value.output = (render options b).value.output ↔
      listing.map Instruction.blur = other.map Instruction.blur := by
  obtain ⟨-, hfills⟩ := disassemble_eq_ok_iff.mp ha
  obtain ⟨-, hfills'⟩ := disassemble_eq_ok_iff.mp hb
  by_cases hformat : options.format = .html
  · rw [Page.output_eq hformat ha, Page.output_eq hformat hb, String.append_left_inj,
      String.append_right_inj, Page.lines_eq_iff hcolumn hfills hfills']
  · rw [Terminal.output_eq hformat ha, Terminal.output_eq hformat hb, String.append_right_inj,
      Terminal.lines_eq_iff hcolumn hfills hfills']

end Outputs

/-- What a rendering determines about its image. With the opcode column, in every format
    and with all other options, the outputs about two images that have listings are equal
    exactly when the images have the same length and the same bytes, up to bytes that are
    shown alike: operators that are both zero or both not, types above three, tags above
    two, and all data behind a tag above two. -/
theorem rendering_eq_iff_bytes_alike (options : Options)
    (hcolumn : options.columns.shows .opcode = true) (a b : Image) (listing other : Listing)
    (ha : (disassemble a).value = .ok listing) (hb : (disassemble b).value = .ok other) :
    (render options a).value.output = (render options b).value.output ↔
      a.length = b.length ∧
      ∀ (k : Nat) (x y : UInt8), a[k]? = some x → b[k]? = some y →
        x = y ∨
        listing.roles[k]? = some .operator ∧ (x = 0 ↔ y = 0) ∨
        listing.roles[k]? = some .dataType ∧ 3 < x ∧ 3 < y ∨
        listing.roles[k]? = some .tag ∧ 2 < x ∧ 2 < y ∨
        listing.roles[k]? = some .hidden := by
  obtain ⟨-, hfills⟩ := disassemble_eq_ok_iff.mp ha
  obtain ⟨-, hfills'⟩ := disassemble_eq_ok_iff.mp hb
  rw [output_eq_iff_blur_eq hcolumn ha hb, hfills.blur_eq_iff hfills',
    alike_iff hfills.length_roles]

/-- An unknown tag with its data, an operator and an unknown type are changed, and the
    instructions look the same in all formats. -/
theorem rendering_eq_iff_bytes_alike_unknown :
    let a : Image := [0xF3, 0xFF, 0x03, 0x05, 0x00, 0x80, 0x00, 0x07, 0x00, 0x10, 0x00,
      0x00, 0x05, 0x34, 0x12, 0x04]
    let b : Image := [0xF3, 0xFF, 0x09, 0xFF, 0xFF, 0x01, 0x00, 0x07, 0x00, 0x10, 0x00,
      0x00, 0x05, 0x34, 0x12, 0xFF]
    let listing : Listing := [⟨0, 0xFFF3, some "free",
        [.offset ⟨.unknown 0x03 0x0005, .add, .literal 0x0007⟩, .literal 0x0010 2]⟩,
      ⟨11, 0x0500, some "vnew", [.var 0x1234, .dataType (.unknown 0x04)]⟩]
    let other : Listing := [⟨0, 0xFFF3, some "free",
        [.offset ⟨.unknown 0x09 0xFFFF, .add, .literal 0x0007⟩, .literal 0x0010 2]⟩,
      ⟨11, 0x0500, some "vnew", [.var 0x1234, .dataType (.unknown 0xFF)]⟩]
    (disassemble a).value = .ok listing ∧ (disassemble b).value = .ok other ∧
      ∀ format, (render { format } a).value.output = (render { format } b).value.output := by
  intro a b listing other
  have ha : (disassemble a).value = .ok listing := by
    simp only [a, listing]
    with_unfolding_all rfl
  have hb : (disassemble b).value = .ok other := by
    simp only [b, other]
    with_unfolding_all rfl
  have halike : Alike listing.roles a b := by
    simp [a, b, listing, Listing.roles, Instruction.roles, Operand.roles, OffsetSide.roles,
      Operand.size, ByteRole.Allows]
  have hcolumn : Columns.all.shows .opcode = true := by decide
  refine ⟨ha, hb, ?_⟩
  intro format
  exact (rendering_eq_iff_bytes_alike { format } hcolumn a b listing other ha hb).mpr
    ((alike_iff rfl).mp halike)

end Disassembly
