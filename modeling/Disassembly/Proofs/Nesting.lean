import Mathlib.Data.List.Forall2
import Disassembly.Proofs.Colours
import Disassembly.Proofs.TokenGrammar

/-!
# Pages are well nested

A page is read tag by tag (`Tag.read?`). Reading fails at an angle bracket that does not
belong to a tag, at a tag that is not closed, and at a tag that is not known. What has
been opened and not closed yet is kept on a stack (`Tag.nest`), and a text is well nested
if the stack is empty again at the end of it (`WellNested`).

A page is made of pieces. The tags of tidy pieces are read as they were written
(`Markup.read?_pieces`), so nesting is a property of the pieces: a balanced sequence
leaves the stack as it was (`Markup.Balanced`). Only two things on a page are balanced
late. The elements around a listing are opened at its start and closed at its finish, and
the span around the columns of a line is opened with the address and closed with the
opcode. The first is seen on the page as a whole (`Page.page_eq`), the second on the two
cells together (`Page.cells_eq`).
-/

namespace Disassembly

/-! ### Tags -/

/-- A tag without its attributes. -/
inductive Tag where
  | opening (element : Element)
  | closing (element : Element)
  | rule
  | lineBreak
deriving DecidableEq, Repr

/-- The element with a name. -/
def Element.ofName? (name : List Char) : Option Element :=
  [style, pre, heading, division, span].find? fun element => element.name.toList = name

namespace Tag

/-- The tag with a text between its angle brackets. The name of an element that is opened
    ends with the first blank. -/
def ofText? : List Char → Option Tag
  | ['h', 'r'] => some rule
  | ['b', 'r', '/'] => some lineBreak
  | '/' :: name => (Element.ofName? name).map closing
  | text => (Element.ofName? (text.takeWhile (· != ' '))).map opening

/-- Read the tags of a text. Inside of a tag, the first argument is what has been read of
    it. There is no result if an angle bracket does not stand at one end of a tag. -/
def read? : Option (List Char) → List Char → Option (List Tag)
  | none, [] => some []
  | some _, [] => none
  | none, c :: text =>
      if c = '<' then read? (some []) text
      else if c = '>' then none
      else read? none text
  | some begun, c :: text =>
      if c = '>' then (ofText? begun).bind fun tag => (read? none text).map (tag :: ·)
      else if c = '<' then none
      else read? (some (begun ++ [c])) text

/-- What a tag does to the elements that are open, the innermost one first. An element
    can be closed only if it is the innermost one. -/
def nest : List Element → Tag → Option (List Element)
  | opened, opening element => some (element :: opened)
  | [], closing _ => none
  | innermost :: opened, closing element => if element = innermost then some opened else none
  | opened, rule => some opened
  | opened, lineBreak => some opened

theorem read?_text {text : List Char} (h : '<' ∉ text ∧ '>' ∉ text) (rest : List Char) :
    read? none (text ++ rest) = read? none rest := by
  induction text with
  | nil => rfl
  | cons c text ih =>
    obtain ⟨hopen, hopens⟩ := not_or.mp (mt List.mem_cons.mpr h.1)
    obtain ⟨hclose, hcloses⟩ := not_or.mp (mt List.mem_cons.mpr h.2)
    rw [List.cons_append, read?, if_neg (Ne.symm hopen), if_neg (Ne.symm hclose),
      ih ⟨hopens, hcloses⟩]

theorem read?_inside {begun text : List Char} (h : '<' ∉ text ∧ '>' ∉ text) (rest : List Char) :
    read? (some begun) (text ++ '>' :: rest) =
      (ofText? (begun ++ text)).bind fun tag => (read? none rest).map (tag :: ·) := by
  induction text generalizing begun with
  | nil => rw [List.nil_append, List.append_nil, read?, if_pos rfl]
  | cons c text ih =>
    obtain ⟨hopen, hopens⟩ := not_or.mp (mt List.mem_cons.mpr h.1)
    obtain ⟨hclose, hcloses⟩ := not_or.mp (mt List.mem_cons.mpr h.2)
    rw [List.cons_append, read?, if_neg (Ne.symm hclose), if_neg (Ne.symm hopen),
      ih ⟨hopens, hcloses⟩, List.append_assoc, List.singleton_append]

/-- A known tag is read, and then what follows it. -/
theorem read?_tag {text : List Char} {tag : Tag} (h : '<' ∉ text ∧ '>' ∉ text)
    (htag : ofText? text = some tag) (rest : List Char) :
    read? none ('<' :: text ++ '>' :: rest) = (read? none rest).map (tag :: ·) := by
  rw [List.cons_append, read?, if_pos rfl, read?_inside h, List.nil_append, htag]
  rfl

theorem ofText?_opening (element : Element) {attributes : List Char}
    (h : attributes = [] ∨ attributes.head? = some ' ') :
    ofText? (element.name.toList ++ attributes) = some (opening element) := by
  rcases h with rfl | hhead
  · cases element <;> rfl
  · obtain ⟨rest, rfl⟩ := List.head?_eq_some_iff.mp hhead
    cases element <;> rfl

theorem ofText?_closing (element : Element) :
    ofText? ('/' :: element.name.toList) = some (closing element) := by
  cases element <;> rfl

end Tag

/-- The text can be read tag by tag, every tag that closes an element closes the innermost
    one, and in the end all are closed. -/
def WellNested (text : String) : Prop :=
  ∃ tags, Tag.read? none text.toList = some tags ∧ tags.foldlM Tag.nest [] = some []

/-! ### Pieces -/

namespace Markup

def tags : Markup → List Tag
  | text _ => []
  | opening element _ => [.opening element]
  | closing element => [.closing element]
  | rule => [.rule]
  | lineBreak => [.lineBreak]

/-- A tidy piece is read as it was written. -/
theorem Tidy.read?_write {m : Markup} (h : m.Tidy) (rest : List Char) :
    Tag.read? none (m.write.toList ++ rest) = (Tag.read? none rest).map (m.tags ++ ·) := by
  cases m with
  | text content =>
    rw [write, Tag.read?_text h]
    simp [tags]
  | opening element className =>
    obtain ⟨-, hopen, hclose⟩ := name_facts element
    obtain ⟨attributes, hattributes, hhead, hwrite⟩ : ∃ attributes : List Char,
        ('<' ∉ attributes ∧ '>' ∉ attributes) ∧
        (attributes = [] ∨ attributes.head? = some ' ') ∧
        (opening element className).write.toList ++ rest =
          '<' :: (element.name.toList ++ attributes) ++ '>' :: rest := by
      cases className with
      | none => exact ⟨[], by simp, Or.inl rfl, by simp [write]⟩
      | some className =>
        exact ⟨className.attribute.toList, brackets_not_mem_attribute h,
          Or.inr (by simp [ClassName.attribute]), by simp [write]⟩
    rw [hwrite, Tag.read?_tag (by simp [hopen, hclose, hattributes])
      (Tag.ofText?_opening element hhead)]
    rfl
  | closing element =>
    obtain ⟨-, hopen, hclose⟩ := name_facts element
    have hwrite : (closing element).write.toList ++ rest =
        '<' :: ('/' :: element.name.toList) ++ '>' :: rest := by
      simp [write]
    rw [hwrite, Tag.read?_tag (by simp [hopen, hclose]) (Tag.ofText?_closing element)]
    rfl
  | rule => exact @Tag.read?_tag ['h', 'r'] .rule (by decide) rfl rest
  | lineBreak => exact @Tag.read?_tag ['b', 'r', '/'] .lineBreak (by decide) rfl rest

theorem read?_pieces {pieces : List Markup} (h : ∀ m ∈ pieces, m.Tidy) :
    Tag.read? none (pieces.flatMap fun m => m.write.toList) = some (pieces.flatMap tags) := by
  induction pieces with
  | nil => rfl
  | cons m pieces ih =>
    obtain ⟨hfirst, hothers⟩ := List.forall_mem_cons.mp h
    rw [List.flatMap_cons, hfirst.read?_write, ih hothers]
    rfl

theorem count_lineBreak_tags (pieces : List Markup) :
    (pieces.flatMap tags).count .lineBreak = pieces.count .lineBreak := by
  induction pieces with
  | nil => rfl
  | cons m pieces ih =>
    rw [List.flatMap_cons, List.count_append, ih, List.count_cons, Nat.add_comm]
    cases m <;> rfl

/-- Whatever elements are open, the pieces leave them open, and no other ones. -/
def Balanced (pieces : List Markup) : Prop :=
  ∀ opened, (pieces.flatMap tags).foldlM Tag.nest opened = some opened

theorem balanced_nil : Balanced [] := fun _ => rfl

theorem balanced_text (content : String) : Balanced [.text content] := fun _ => rfl

theorem balanced_rule : Balanced [.rule] := fun _ => rfl

theorem balanced_lineBreak : Balanced [.lineBreak] := fun _ => rfl

theorem Balanced.append {pieces others : List Markup} (h : Balanced pieces)
    (hothers : Balanced others) : Balanced (pieces ++ others) := by
  intro opened
  rw [List.flatMap_append, List.foldlM_append, h opened]
  exact hothers opened

/-- Around a balanced content an element is opened and closed again. -/
theorem Balanced.enclose {content : List Markup} (h : Balanced content) (element : Element)
    (className : Option ClassName) : Balanced (Markup.enclose element className content) := by
  intro opened
  have hcontent := h (element :: opened)
  simp [Markup.enclose, tags, Tag.nest, List.foldlM_append, hcontent]

theorem balanced_span (className : ClassName) (content : String) :
    Balanced (span className content) :=
  (balanced_text content).enclose .span (some className)

theorem balanced_flatMap {α : Type} {pieces : α → List Markup} (h : ∀ a, Balanced (pieces a))
    (items : List α) : Balanced (items.flatMap pieces) := by
  induction items with
  | nil => exact balanced_nil
  | cons a items ih =>
    rw [List.flatMap_cons]
    exact (h a).append ih

theorem balanced_ite {condition : Bool} {pieces : List Markup} (h : Balanced pieces) :
    Balanced (if condition then pieces else []) := by
  split
  · exact h
  · exact balanced_nil

/-- Tidy pieces that are balanced make a text that is well nested. -/
theorem wellNested_join {pieces : List Markup} (htidy : ∀ m ∈ pieces, m.Tidy)
    (h : Balanced pieces) : WellNested (String.join (pieces.map write)) := by
  refine ⟨pieces.flatMap tags, ?_, h []⟩
  rw [String.toList_join, List.flatMap_map, read?_pieces htidy]

end Markup

/-! ### Lines -/

namespace Page

open Markup

/-- What is shown of a line in front of its mnemonic, without the span around it. -/
def shown (columns : Columns) (i : Instruction) : List Markup :=
  (if columns.shows .address then hex (.word i.address) ++ [.text "\t"] else []) ++
    (if columns.shows .opcode then hex (.word i.opcode) ++ [.text "\t"] else [])

/-- If there is a span around the columns, then it ends with them. -/
theorem cells_eq (columns : Columns) (i : Instruction) :
    cell columns .address (.word i.address) ++ cell columns .opcode (.word i.opcode) =
      if columns.showsAny then
        enclose .span (some (noSelect .double)) (shown columns i)
      else [] := by
  cases hany : columns.showsAny with
  | true => simp [cell, hany, shown, enclose]
  | false =>
    have hnone := hany
    rw [Columns.showsAny, Bool.or_eq_false_iff] at hnone
    simp [cell, hany, hnone.1, hnone.2]

theorem balanced_hex (token : Token) : Balanced (hex token) :=
  balanced_span _ _

theorem balanced_shown (columns : Columns) (i : Instruction) : Balanced (shown columns i) :=
  (balanced_ite ((balanced_hex _).append (balanced_text _))).append
    (balanced_ite ((balanced_hex _).append (balanced_text _)))

theorem exists_text_punctuation (text : String) :
    ∃ content, bodyMarkup (.punctuation text) = [.text content] := by
  by_cases hcomma : text = ","
  · subst hcomma
    exact ⟨", ", rfl⟩
  · exact ⟨text, by rw [bodyMarkup]; exact hcomma⟩

theorem balanced_bodyMarkup (token : Token) : Balanced (bodyMarkup token) := by
  cases token with
  | keyword name => exact (balanced_span _ _).append (balanced_text _)
  | hex value width => exact balanced_hex _
  | typeName | varAddress => exact balanced_span _ _
  | punctuation text =>
    obtain ⟨content, hcontent⟩ := exists_text_punctuation text
    rw [hcontent]
    exact balanced_text content
  | var | unknown => exact balanced_text _
  | lineBreak => exact balanced_lineBreak

theorem balanced_line (columns : Columns) (i : Instruction) : Balanced (line columns i) := by
  rw [line, cells_eq]
  exact ((balanced_ite ((balanced_shown columns i).enclose _ _)).append
    (balanced_flatMap balanced_bodyMarkup i.body)).append balanced_lineBreak

theorem count_lineBreak_bodyMarkup {token : Token} (h : token ≠ .lineBreak) :
    (bodyMarkup token).count .lineBreak = 0 := by
  cases token with
  | lineBreak => exact absurd rfl h
  | punctuation text =>
    obtain ⟨content, hcontent⟩ := exists_text_punctuation text
    rw [hcontent]
    rfl
  | keyword | hex | typeName | var | varAddress | unknown => rfl

/-- A line ends with its only line break. -/
theorem count_lineBreak_line (columns : Columns) (i : Instruction) :
    (line columns i).count .lineBreak = 1 := by
  have hcells : (cell columns .address (.word i.address) ++
      cell columns .opcode (.word i.opcode)).count .lineBreak = 0 := by
    unfold cell
    cases columns.showsAny <;> cases columns.shows .address <;> cases columns.shows .opcode <;> rfl
  have hbody : (i.body.flatMap bodyMarkup).count .lineBreak = 0 := by
    rw [List.count_eq_zero]
    intro hmem
    obtain ⟨token, htoken, hmarkup⟩ := List.mem_flatMap.mp hmem
    have hne : token ≠ .lineBreak := by
      rintro rfl
      exact i.lineBreak_not_mem_body htoken
    exact List.count_eq_zero.mp (count_lineBreak_bodyMarkup hne) hmarkup
  rw [line, List.count_append, List.count_append, hcells, hbody]
  rfl

/-- A text inside of a span. -/
def spanText (className content : String) : String :=
  "<span class=\"" ++ className ++ "\">" ++ content ++ "</span>"

/-- The text of the mnemonic. -/
def mnemonicText (i : Instruction) : String :=
  match i.mnemonic with
  | some name => spanText "style_keyword" name
  | none => "unknown"

/-- The text of a column that shows a word. -/
def wordColumn (word : UInt16) : String :=
  spanText "style_hex" ("$" ++ Hex.numeral 4 word.toNat) ++ "\t"

/-- The line of an instruction as it stands on a page. -/
structure ShowsLine (columns : Columns) (i : Instruction) (text : String) : Prop where
  /-- If a column is shown then a span begins in front of the columns and ends in front of
      the mnemonic. What stands between is well nested, so it is this span that is closed
      there. -/
  columnsApart : ∃ shown rest : String,
    shown = (if columns.shows .address then wordColumn i.address else "") ++
      (if columns.shows .opcode then wordColumn i.opcode else "") ∧
    WellNested shown ∧ WellNested rest ∧
    text = (if columns.showsAny then spanText "no_select" shown else "") ++ mnemonicText i ++
      rest ++ "<br/>"
  oneLineBreak : ∃ tags, Tag.read? none text.toList = some tags ∧ tags.count .lineBreak = 1

theorem join_enclose_span (name : String) (content : List Markup) :
    String.join ((enclose .span (some ⟨name, .double⟩) content).map write) =
      spanText name (String.join (content.map write)) := by
  change _ = "<span class=\"" ++ name ++ "\">" ++ String.join (content.map write) ++ "</span>"
  rw [← String.toList_inj]
  simp [enclose, write, ClassName.attribute, Quoting.mark, Element.name]

theorem join_span (name content : String) :
    String.join ((span ⟨name, .double⟩ content).map write) = spanText name content := by
  rw [span, join_enclose_span]
  simp [write]

theorem tidy_shown (columns : Columns) (i : Instruction) : ∀ m ∈ shown columns i, m.Tidy := by
  have hcolumn (word : UInt16) : ∀ m ∈ hex (.word word) ++ [Markup.text "\t"], m.Tidy := by
    rw [List.forall_mem_append]
    exact ⟨tidy_hex (clean_numeral 4 word.toNat), by simp [Tidy]⟩
  rw [shown, List.forall_mem_append]
  constructor
  · split
    · exact hcolumn i.address
    · simp
  · split
    · exact hcolumn i.opcode
    · simp

theorem join_shown (columns : Columns) (i : Instruction) :
    String.join ((shown columns i).map write) =
      (if columns.shows .address then wordColumn i.address else "") ++
        (if columns.shows .opcode then wordColumn i.opcode else "") := by
  have hcolumn (word : UInt16) :
      String.join ((hex (.word word) ++ [Markup.text "\t"]).map write) = wordColumn word := by
    rw [List.map_append, String.join_append, hex, join_span]
    rfl
  rw [shown, List.map_append, String.join_append]
  congr 1
  · split
    · exact hcolumn i.address
    · rfl
  · split
    · exact hcolumn i.opcode
    · rfl

/-- The mnemonic comes first behind the columns. -/
theorem exists_rest {i : Instruction} (h : i.WellFormed) :
    ∃ rest : List Markup, (∀ m ∈ rest, m.Tidy) ∧ Balanced rest ∧
      String.join ((i.body.flatMap bodyMarkup).map write) =
        mnemonicText i ++ String.join (rest.map write) := by
  obtain ⟨-, htokens⟩ := List.forall_mem_cons.mp h.clean_body
  let operands := i.operandTokens.flatMap bodyMarkup
  have htidy : ∀ m ∈ operands, m.Tidy := by
    intro m hm
    obtain ⟨token, htoken, hmem⟩ := List.mem_flatMap.mp hm
    exact tidy_bodyMarkup (htokens token htoken) m hmem
  have hbalanced : Balanced operands := balanced_flatMap balanced_bodyMarkup i.operandTokens
  have hbody : i.body.flatMap bodyMarkup = bodyMarkup i.head ++ operands := rfl
  rw [hbody, List.map_append, String.join_append, Instruction.head, mnemonicText]
  cases i.mnemonic with
  | some name =>
    refine ⟨[.text "\t"] ++ operands, ?_, (balanced_text "\t").append hbalanced, ?_⟩
    · rw [List.forall_mem_append]
      exact ⟨by simp [Tidy], htidy⟩
    · rw [bodyMarkup, List.map_append, List.map_append, String.join_append, String.join_append,
        Style.className, join_span, String.append_assoc]
  | none => exact ⟨operands, htidy, hbalanced, rfl⟩

/-- The cells of a line are written with the span around them. -/
theorem join_cells (columns : Columns) (i : Instruction) :
    String.join ((cell columns .address (.word i.address) ++
        cell columns .opcode (.word i.opcode)).map write) =
      if columns.showsAny then
        spanText "no_select" (String.join ((shown columns i).map write))
      else "" := by
  rw [cells_eq]
  split
  · exact join_enclose_span "no_select" _
  · rfl

theorem showsLine_lineText (options : Options) {i : Instruction} (h : i.WellFormed) :
    ShowsLine options.columns i ((writer options).lineText i) where
  columnsApart := by
    obtain ⟨rest, htidy, hbalanced, hbody⟩ := exists_rest h
    refine ⟨String.join ((shown options.columns i).map write), String.join (rest.map write),
      join_shown _ _, wellNested_join (tidy_shown _ _) (balanced_shown _ _),
      wellNested_join htidy hbalanced, ?_⟩
    rw [lineText_eq, line, List.map_append, List.map_append, String.join_append,
      String.join_append, join_cells, hbody, ← String.append_assoc]
    rfl
  oneLineBreak := by
    refine ⟨(line options.columns i).flatMap tags, ?_, ?_⟩
    · rw [lineText_eq, String.toList_join, List.flatMap_map]
      exact read?_pieces (tidy_line options.columns h)
    · rw [count_lineBreak_tags, count_lineBreak_line]

/-! ### Pages -/

theorem brackets_not_mem_rules (palette : Palette) :
    '<' ∉ palette.rules.toList ∧ '>' ∉ palette.rules.toList := by
  have hcss (c : Color) : Clean c.css :=
    ((Clean.append (by decide) (clean_numeral 2 _)).append (clean_numeral 2 _)).append
      (clean_numeral 2 _)
  have hclass (style : Style) : Clean ("." ++ style.className ++ "\x7bcolor:") := by
    cases style <;> decide
  have hrules {c : Char} (hc : c ∈ layoutCharacters) : c ∉ palette.rules.toList := by
    rw [Palette.rules, String.toList_join]
    intro hmem
    obtain ⟨rule, hrule, hchar⟩ := List.mem_flatMap.mp hmem
    obtain ⟨style, -, rfl⟩ := List.mem_map.mp hrule
    exact (((hclass style).append (hcss _)).append (by decide)).not_mem hc hchar
  exact ⟨hrules (by decide), hrules (by decide)⟩

theorem brackets_not_mem_caption (columns : Columns) :
    '<' ∉ columns.caption.toList ∧ '>' ∉ columns.caption.toList := by
  unfold Columns.caption
  split <;> split <;> decide

theorem tidy_enclose {element : Element} {className : Option ClassName} {content : List Markup}
    (hname : (Markup.opening element className).Tidy) (h : ∀ m ∈ content, m.Tidy) :
    ∀ m ∈ enclose element className content, m.Tidy := by
  rw [enclose, List.forall_mem_cons, List.forall_mem_append]
  exact ⟨hname, h, by simp [Tidy]⟩

theorem tidy_stylesheet (options : Options) : ∀ m ∈ stylesheet options, m.Tidy := by
  unfold stylesheet
  split
  · exact tidy_enclose trivial (by simpa [Tidy] using brackets_not_mem_rules options.palette)
  · simp

theorem tidy_opening (options : Options) : ∀ m ∈ opening options, m.Tidy := by
  have hcaption := brackets_not_mem_caption options.columns
  simp only [opening, List.forall_mem_append]
  refine ⟨⟨⟨⟨tidy_stylesheet options, by simp [Tidy]⟩, ?_⟩, by simp [Tidy]⟩, ?_⟩
  · split
    · exact tidy_enclose trivial (by simp [Tidy])
    · simp
  · split
    · rw [List.forall_mem_append]
      exact ⟨tidy_enclose (by simp [Tidy, noSelect]) (by simpa [Tidy] using hcaption),
        by simp [Tidy]⟩
    · simp

theorem tidy_banner (options : Options) (length : Nat) : ∀ m ∈ banner options length, m.Tidy := by
  have hdigits : '<' ∉ (toString length).toList ∧ '>' ∉ (toString length).toList :=
    ⟨not_mem_toString (by decide) length, not_mem_toString (by decide) length⟩
  simp only [banner, List.forall_mem_append]
  refine ⟨⟨⟨tidy_stylesheet options, ?_⟩, by simp [Tidy]⟩, ?_⟩
  · exact tidy_enclose trivial (tidy_span (by decide) (by decide))
  · exact tidy_enclose (by simp [Tidy]) (by simpa [Tidy] using hdigits)

theorem balanced_stylesheet (options : Options) : Balanced (stylesheet options) :=
  balanced_ite ((balanced_text _).enclose _ _)

theorem balanced_banner (options : Options) (length : Nat) : Balanced (banner options length) :=
  (((balanced_stylesheet options).append ((balanced_span _ _).enclose _ _)).append
    (balanced_text _)).append (balanced_span _ _)

/-- The elements around a listing, from the start to the finish. -/
theorem page_eq (options : Options) (content : List Markup) :
    opening options ++ content ++ [Markup.closing .division, .closing .pre] =
      stylesheet options ++ enclose .pre none
        ((if options.header then enclose .heading none [.text "Displaying Disassembly"] else []) ++
          enclose .division (some ⟨"DisassemblyBox", .double⟩)
            ((if options.header then span (noSelect .single) options.columns.caption ++ [.rule]
              else []) ++ content)) := by
  simp [opening, enclose]

theorem balanced_page (options : Options) {content : List Markup} (h : Balanced content) :
    Balanced (opening options ++ content ++ [Markup.closing .division, .closing .pre]) := by
  rw [page_eq]
  have hheading := (balanced_text "Displaying Disassembly").enclose .heading none
  have hcaption :=
    (balanced_span (noSelect .single) options.columns.caption).append balanced_rule
  exact (balanced_stylesheet options).append
    (((balanced_ite hheading).append (((balanced_ite hcaption).append h).enclose _ _)).enclose _ _)

/-- The pieces of the page about an image, by what its disassembly gave. -/
def pieces (options : Options) : Except DecodeError Listing → List Markup
  | .ok listing =>
      opening options ++ listing.flatMap (line options.columns) ++
        [Markup.closing .division, .closing .pre]
  | .error (.oversize length) => banner options length
  | .error (.outOfData _ _) => []

theorem toList_output_eq_pieces {options : Options} (hformat : options.format = .html)
    (image : Image) :
    (render options image).value.output.toList =
      (pieces options (disassemble image).value).flatMap fun m => m.write.toList := by
  cases hvalue : (disassemble image).value with
  | ok listing =>
    have hfinish : "</div></pre>".toList =
        [Markup.closing .division, .closing .pre].flatMap fun m => m.write.toList := by
      decide
    rw [output_eq hformat hvalue, String.toList_append, String.toList_append, toList_lines,
      String.toList_join, List.flatMap_map, hfinish, pieces, List.flatMap_append,
      List.flatMap_append]
  | error e =>
    rw [output_eq_write hformat, Image.calls_eq, hvalue]
    cases e with
    | oversize length =>
      simp only [Event.ofResult, Writer.write_cons, Writer.write_nil, writer, markup, pieces]
      rw [String.append_empty, String.toList_join, List.flatMap_map]
    | outOfData => rfl

theorem tidy_pieces (options : Options) (image : Image) :
    ∀ m ∈ pieces options (disassemble image).value, m.Tidy := by
  cases hvalue : (disassemble image).value with
  | ok listing =>
    have hwell := wellFormed_of_disassemble hvalue
    simp only [pieces, List.forall_mem_append]
    refine ⟨⟨tidy_opening options, ?_⟩, by simp [Tidy]⟩
    intro m hm
    obtain ⟨i, hi, hmem⟩ := List.mem_flatMap.mp hm
    exact tidy_line options.columns (hwell i hi) m hmem
  | error e =>
    cases e with
    | oversize length => exact tidy_banner options length
    | outOfData => simp [pieces]

theorem balanced_pieces (options : Options) (result : Except DecodeError Listing) :
    Balanced (pieces options result) := by
  rcases result with (length | ⟨offset, length⟩) | listing
  · exact balanced_banner options length
  · exact balanced_nil
  · exact balanced_page options (balanced_flatMap (balanced_line options.columns) listing)

/-- There are as many line breaks as there are instructions. -/
theorem count_lineBreak_pieces (options : Options) (result : Except DecodeError Listing) :
    (pieces options result).count .lineBreak =
      match result with
      | .ok listing => listing.length
      | .error _ => 0 := by
  have hsheet : (stylesheet options).count .lineBreak = 0 := by
    unfold stylesheet
    split <;> rfl
  rcases result with (length | ⟨offset, length⟩) | listing
  · rw [pieces, banner, List.count_append, List.count_append, List.count_append, hsheet]
    rfl
  · rfl
  · have hopening : (opening options).count .lineBreak = 0 := by
      simp only [opening, List.count_append, hsheet]
      cases options.header <;> rfl
    have hlines : (listing.flatMap (line options.columns)).count .lineBreak = listing.length := by
      induction listing with
      | nil => rfl
      | cons i listing ih =>
        rw [List.flatMap_cons, List.count_append, count_lineBreak_line, ih, List.length_cons,
          Nat.add_comm]
    rw [pieces, List.count_append, List.count_append, hopening, hlines, Nat.zero_add]
    rfl

end Page

/-- Pages are well nested. Whatever the options of a page and the image are, its text can
    be read tag by tag, so that angle brackets stand only at the ends of tags that are
    known, and every element is closed after those that were opened inside of it. About an
    image that has a listing, there are as many line-break tags as instructions, one at
    the end of every line, and the span around the columns of a line is closed in front of
    its mnemonic. About all other images there is no line-break tag. -/
theorem page_well_nested (options : Options) (image : Image) (hformat : options.format = .html) :
    ∃ tags, Tag.read? none (render options image).value.output.toList = some tags ∧
      tags.foldlM Tag.nest [] = some [] ∧
      (∀ listing, (disassemble image).value = .ok listing →
        tags.count .lineBreak = listing.length ∧
        ∃ lines : List String,
          (render options image).value.output =
            String.join ((Page.opening options).map Markup.write) ++ String.join lines ++
              "</div></pre>" ∧
          List.Forall₂ (Page.ShowsLine options.columns) listing lines) ∧
      ((¬ ∃ listing, (disassemble image).value = .ok listing) → tags.count .lineBreak = 0) := by
  let pieces := Page.pieces options (disassemble image).value
  have hcount : (pieces.flatMap Markup.tags).count .lineBreak =
      match (disassemble image).value with
      | .ok listing => listing.length
      | .error _ => 0 := by
    rw [Markup.count_lineBreak_tags]
    exact Page.count_lineBreak_pieces options _
  refine ⟨pieces.flatMap Markup.tags, ?_, Page.balanced_pieces options _ [], ?_, ?_⟩
  · rw [Page.toList_output_eq_pieces hformat]
    exact Markup.read?_pieces (Page.tidy_pieces options image)
  · intro listing hvalue
    have hwell := wellFormed_of_disassemble hvalue
    rw [hvalue] at hcount
    refine ⟨hcount, listing.map (Page.writer options).lineText, Page.output_eq hformat hvalue, ?_⟩
    rw [List.forall₂_map_right_iff, List.forall₂_same]
    intro i hi
    exact Page.showsLine_lineText options (hwell i hi)
  · intro hnone
    cases hvalue : (disassemble image).value with
    | ok listing => exact absurd ⟨listing, hvalue⟩ hnone
    | error e =>
      rw [hvalue] at hcount
      exact hcount

/-- Only the opcodes are shown. Each of the two lines has a span around its opcode. -/
theorem page_well_nested_opcodes :
    let image : Image := [0x00, 0x05, 0x34, 0x12, 0x01, 0xFF, 0x00]
    let listing : Listing := [⟨0, 0x0500, some "vnew", [.var 0x1234, .dataType .u16]⟩,
      ⟨5, 0x00FF, none, []⟩]
    let options : Options := { format := .html, columns := ⟨2⟩, header := false }
    (disassemble image).value = .ok listing ∧
    (render options image).value.output =
      "<pre><div class=\"DisassemblyBox\">" ++
      "<span class=\"no_select\"><span class=\"style_hex\">$0500</span>\t</span>" ++
      "<span class=\"style_keyword\">vnew</span>\tVAR_1234, " ++
      "<span class=\"style_type\">u16</span><br/>" ++
      "<span class=\"no_select\"><span class=\"style_hex\">$00FF</span>\t</span>unknown<br/>" ++
      "</div></pre>" ∧
    ∃ tags, Tag.read? none (render options image).value.output.toList = some tags ∧
      tags.foldlM Tag.nest [] = some [] ∧ tags.count .lineBreak = 2 := by
  intro image listing options
  have hvalue : (disassemble image).value = .ok listing := by
    simp only [image, listing]
    with_unfolding_all rfl
  obtain ⟨tags, hread, hnested, hlisted, -⟩ := page_well_nested options image rfl
  exact ⟨hvalue, by decide +kernel, tags, hread, hnested, (hlisted listing hvalue).1⟩

end Disassembly
