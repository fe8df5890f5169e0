import Disassembly.Proofs.LineLayout

/-!
# Pages and terminals show the same listing

A page becomes plain text when every line-break tag is turned into a line feed and all
other tags are deleted. What is left of a listing is the text that a terminal shows,
but for one thing: a page has a tab behind every keyword, a terminal only where another
token follows. So a tab right in front of a line feed is deleted as well
(`Page.plainText`).

The proof goes token by token (`dropTabs_body`), line by line (`dropTabs_line`) and
through the whole listing (`dropTabs_listing`). Tags can be deleted piece by piece since
the text between them holds no angle bracket (`Markup.Tidy`).
-/

namespace Disassembly

/-! ### Deleting stretches of text -/

/-- Delete from every first mark to the next last mark, both included. The flag tells
    whether the text begins inside of such a stretch. -/
def deleteSpans (first last : Char) : Bool → List Char → List Char
  | _, [] => []
  | true, c :: text => deleteSpans first last (c != last) text
  | false, c :: text =>
      if c = first then deleteSpans first last true text
      else c :: deleteSpans first last false text

theorem deleteSpans_append {first last : Char} {text rest : List Char} (h : first ∉ text) :
    deleteSpans first last false (text ++ rest) = text ++ deleteSpans first last false rest := by
  induction text with
  | nil => rfl
  | cons c text ih =>
    obtain ⟨hne, hrest⟩ := not_or.mp (mt List.mem_cons.mpr h)
    rw [List.cons_append, deleteSpans, if_neg (Ne.symm hne), ih hrest, List.cons_append]

theorem deleteSpans_inside {first last : Char} {text rest : List Char} (h : last ∉ text) :
    deleteSpans first last true (text ++ last :: rest) = deleteSpans first last false rest := by
  induction text with
  | nil => simp [deleteSpans]
  | cons c text ih =>
    obtain ⟨hne, hrest⟩ := not_or.mp (mt List.mem_cons.mpr h)
    rw [List.cons_append, deleteSpans, bne_iff_ne.mpr (Ne.symm hne), ih hrest]

/-- A whole stretch is deleted and what follows it is not touched. -/
theorem deleteSpans_span {first last : Char} {inner rest : List Char} (h : last ∉ inner) :
    deleteSpans first last false (first :: inner ++ last :: rest) =
      deleteSpans first last false rest := by
  rw [List.cons_append, deleteSpans, if_pos rfl, deleteSpans_inside h]

namespace Page

/-! ### Plain text -/

/-- Turn every line-break tag into a line feed. -/
def breakLines : List Char → List Char
  | '<' :: 'b' :: 'r' :: '/' :: '>' :: text => '\n' :: breakLines text
  | c :: text => c :: breakLines text
  | [] => []

/-- Delete a tab that stands right in front of a line feed. -/
def dropTabs : List Char → List Char
  | '\t' :: '\n' :: text => '\n' :: dropTabs text
  | c :: text => c :: dropTabs text
  | [] => []

/-- The text that is left of a page without its markup. -/
def plainText (page : String) : String :=
  String.ofList (dropTabs (deleteSpans '<' '>' false (breakLines page.toList)))

theorem breakLines_cons {c : Char} {text : List Char} (h : c ≠ '<') :
    breakLines (c :: text) = c :: breakLines text := by
  rw [breakLines]
  rintro _ rfl
  exact absurd rfl h

theorem breakLines_append {text rest : List Char} (h : '<' ∉ text) :
    breakLines (text ++ rest) = text ++ breakLines rest := by
  induction text with
  | nil => rfl
  | cons c text ih =>
    obtain ⟨hne, hrest⟩ := not_or.mp (mt List.mem_cons.mpr h)
    rw [List.cons_append, breakLines_cons (Ne.symm hne), ih hrest, List.cons_append]

/-- A tag that does not begin like a line break is kept. -/
theorem breakLines_open {text : List Char} (h : text.head? ≠ some 'b') :
    breakLines ('<' :: text) = '<' :: breakLines text := by
  rw [breakLines]
  rintro _ _ rfl
  exact absurd rfl h

@[simp] theorem dropTabs_nil : dropTabs [] = [] := rfl

theorem dropTabs_cons {c : Char} {text : List Char} (h : c ≠ '\t') :
    dropTabs (c :: text) = c :: dropTabs text := by
  rw [dropTabs]
  rintro _ rfl
  exact absurd rfl h

theorem dropTabs_tab {text : List Char} (h : text.head? ≠ some '\n') :
    dropTabs ('\t' :: text) = '\t' :: dropTabs text := by
  rw [dropTabs]
  rintro _ _ rfl
  exact absurd rfl h

theorem dropTabs_append {text rest : List Char} (h : '\t' ∉ text) :
    dropTabs (text ++ rest) = text ++ dropTabs rest := by
  induction text with
  | nil => rfl
  | cons c text ih =>
    obtain ⟨hne, hrest⟩ := not_or.mp (mt List.mem_cons.mpr h)
    rw [List.cons_append, dropTabs_cons (Ne.symm hne), ih hrest, List.cons_append]

/-- Text without line feeds keeps its tabs if none of them comes to stand in front of
    one. -/
theorem dropTabs_append_of_head {text rest : List Char} (h : '\n' ∉ text)
    (hrest : rest.head? ≠ some '\n') : dropTabs (text ++ rest) = text ++ dropTabs rest := by
  induction text with
  | nil => rfl
  | cons c text ih =>
    obtain ⟨-, htext⟩ := not_or.mp (mt List.mem_cons.mpr h)
    rw [List.cons_append, List.cons_append, ← ih htext]
    by_cases hc : c = '\t'
    · subst hc
      apply dropTabs_tab
      cases text with
      | nil => exact hrest
      | cons d text =>
        intro hd
        cases hd
        exact htext List.mem_cons_self
    · exact dropTabs_cons hc

end Page

/-! ### Markup without its tags -/

namespace Markup

/-- The piece has no angle brackets but those of its own tag. -/
def Tidy : Markup → Prop
  | text content => '<' ∉ content.toList ∧ '>' ∉ content.toList
  | opening _ (some className) => '<' ∉ className.name.toList ∧ '>' ∉ className.name.toList
  | opening _ none | closing _ | rule | lineBreak => True

/-- What a piece leaves in plain text. -/
def plain : Markup → List Char
  | text content => content.toList
  | lineBreak => ['\n']
  | opening _ _ | closing _ | rule => []

theorem strip_tag {inner : List Char} (hhead : inner.head? ≠ some 'b')
    (h : '<' ∉ inner ∧ '>' ∉ inner) (rest : List Char) :
    deleteSpans '<' '>' false (Page.breakLines ('<' :: inner ++ '>' :: rest)) =
      deleteSpans '<' '>' false (Page.breakLines rest) := by
  have hopen : (inner ++ '>' :: rest).head? ≠ some 'b' := by
    cases inner with
    | nil => simp
    | cons c inner => exact hhead
  rw [List.cons_append, Page.breakLines_open hopen, Page.breakLines_append h.1,
    Page.breakLines_cons (by decide)]
  exact deleteSpans_span h.2

theorem name_facts (element : Element) :
    (∃ c name, element.name.toList = c :: name ∧ c ≠ 'b') ∧
      '<' ∉ element.name.toList ∧ '>' ∉ element.name.toList := by
  cases element <;> exact ⟨⟨_, _, rfl, by decide⟩, by decide, by decide⟩

theorem brackets_not_mem_attribute {className : ClassName}
    (h : '<' ∉ className.name.toList ∧ '>' ∉ className.name.toList) :
    '<' ∉ className.attribute.toList ∧ '>' ∉ className.attribute.toList := by
  obtain ⟨name, quoting⟩ := className
  cases quoting <;> simpa [ClassName.attribute, Quoting.mark] using h

/-- Without its tag, a piece leaves its plain text in front of what follows. -/
theorem Tidy.strip_write {m : Markup} (h : m.Tidy) (rest : List Char) :
    deleteSpans '<' '>' false (Page.breakLines (m.write.toList ++ rest)) =
      m.plain ++ deleteSpans '<' '>' false (Page.breakLines rest) := by
  cases m with
  | text content => rw [write, Page.breakLines_append h.1, deleteSpans_append h.1, plain]
  | opening element className =>
    obtain ⟨⟨c, name, hname, hc⟩, hopen, hclose⟩ := name_facts element
    obtain ⟨inner, hinner, hwrite⟩ : ∃ inner : List Char, ('<' ∉ inner ∧ '>' ∉ inner) ∧
        (opening element className).write.toList ++ rest =
          '<' :: (element.name.toList ++ inner) ++ '>' :: rest := by
      cases className with
      | none => exact ⟨[], by simp, by simp [write]⟩
      | some className =>
        exact ⟨className.attribute.toList, brackets_not_mem_attribute h, by simp [write]⟩
    rw [hwrite, strip_tag (by simp [hname, hc]) (by simp [hopen, hclose, hinner]), plain,
      List.nil_append]
  | closing element =>
    obtain ⟨-, hopen, hclose⟩ := name_facts element
    have hwrite : (closing element).write.toList ++ rest =
        '<' :: ('/' :: element.name.toList) ++ '>' :: rest := by
      simp [write]
    rw [hwrite, strip_tag (by simp) (by simp [hopen, hclose]), plain, List.nil_append]
  | rule => exact @strip_tag ['h', 'r'] (by decide) (by decide) rest
  | lineBreak => rfl

theorem strip_pieces {pieces : List Markup} (h : ∀ m ∈ pieces, m.Tidy) (rest : List Char) :
    deleteSpans '<' '>' false
        (Page.breakLines (pieces.flatMap (fun m => m.write.toList) ++ rest)) =
      pieces.flatMap plain ++ deleteSpans '<' '>' false (Page.breakLines rest) := by
  induction pieces with
  | nil => rfl
  | cons m pieces ih =>
    rw [List.flatMap_cons, List.flatMap_cons, List.append_assoc, List.append_assoc,
      (h m List.mem_cons_self).strip_write, ih fun m hm => h m (List.mem_cons_of_mem _ hm)]

end Markup

/-! ### Lines -/

namespace Fragment

def text : Fragment → String
  | plain text => text
  | styled _ text => text

theorem write_none (f : Fragment) : f.write none = f.text := by
  cases f <;> rfl

/-- The characters of a line without its colours. -/
def chars (fragments : List Fragment) : List Char := fragments.flatMap fun f => f.text.toList

@[simp] theorem chars_nil : chars [] = [] := rfl

@[simp] theorem chars_cons (f : Fragment) (fragments : List Fragment) :
    chars (f :: fragments) = f.text.toList ++ chars fragments := rfl

@[simp] theorem chars_append (fragments others : List Fragment) :
    chars (fragments ++ others) = chars fragments ++ chars others :=
  List.flatMap_append

end Fragment

theorem Terminal.clean_bodyFragment {token : Token} (h : Clean token.text) :
    Clean (Terminal.bodyFragment token).text := by
  cases token with
  | hex => exact Clean.append (by decide) h
  | punctuation text =>
    by_cases hcomma : text = ","
    · subst hcomma
      exact (by decide : Clean ", ")
    · simpa [Terminal.bodyFragment, Fragment.text, Token.text, hcomma] using h
  | keyword | typeName | var | varAddress | lineBreak | unknown => exact h

namespace Page

theorem brackets_not_mem_of_clean {text : String} (h : Clean text) :
    '<' ∉ text.toList ∧ '>' ∉ text.toList :=
  ⟨h.not_mem (by decide), h.not_mem (by decide)⟩

theorem tidy_span {className : ClassName} {content : String}
    (hname : '<' ∉ className.name.toList ∧ '>' ∉ className.name.toList) (h : Clean content) :
    ∀ m ∈ Markup.span className content, m.Tidy := by
  have htext := brackets_not_mem_of_clean h
  simp [Markup.span, Markup.enclose, Markup.Tidy, hname, htext]

theorem tidy_hex {token : Token} (h : Clean token.text) : ∀ m ∈ hex token, m.Tidy :=
  tidy_span (by decide) (Clean.append (by decide) h)

theorem tidy_bodyMarkup {token : Token} (h : Clean token.text) :
    ∀ m ∈ bodyMarkup token, m.Tidy := by
  have htext := brackets_not_mem_of_clean h
  cases token with
  | keyword name =>
    rw [bodyMarkup, List.forall_mem_append]
    exact ⟨tidy_span (by decide) h, by simp [Markup.Tidy]⟩
  | hex value width => exact tidy_hex h
  | typeName name => exact tidy_span (by decide) h
  | varAddress id => exact tidy_span (by decide) h
  | punctuation text =>
    by_cases hcomma : text = ","
    · subst hcomma
      simp [bodyMarkup, Markup.Tidy]
    · simpa [bodyMarkup, hcomma, Markup.Tidy, Token.text] using htext
  | var | unknown => simpa [bodyMarkup, Markup.Tidy, Token.text] using htext
  | lineBreak => simp [bodyMarkup, Markup.Tidy]

theorem tidy_cell (columns : Columns) (column : Column) {token : Token} (h : Clean token.text) :
    ∀ m ∈ cell columns column token, m.Tidy := by
  have hshown : ∀ m ∈ (if columns.shows column then hex token ++ [.text "\t"] else []),
      m.Tidy := by
    split
    · rw [List.forall_mem_append]
      exact ⟨tidy_hex h, by simp [Markup.Tidy]⟩
    · simp
  cases hany : columns.showsAny <;> cases column <;> simp only [cell, hany]
  · exact hshown
  · exact hshown
  · rw [List.forall_mem_cons]
    exact ⟨(by decide : '<' ∉ "no_select".toList ∧ '>' ∉ "no_select".toList), hshown⟩
  · rw [List.forall_mem_append]
    exact ⟨hshown, by simp [Markup.Tidy]⟩

theorem tidy_line (columns : Columns) {i : Instruction} (h : i.WellFormed) :
    ∀ m ∈ line columns i, m.Tidy := by
  have hbody : ∀ m ∈ i.body.flatMap bodyMarkup, m.Tidy := by
    intro m hm
    obtain ⟨token, htoken, hmem⟩ := List.mem_flatMap.mp hm
    exact tidy_bodyMarkup (h.clean_body token htoken) m hmem
  simp only [line, List.forall_mem_append]
  exact ⟨⟨⟨tidy_cell columns _ (clean_numeral _ _), tidy_cell columns _ (clean_numeral _ _)⟩,
    hbody⟩, by simp [Markup.Tidy]⟩

/-- In plain text a token looks the same on a page, but for the tab behind a keyword. -/
theorem plain_bodyMarkup {token : Token} (h : token ≠ .lineBreak) :
    (bodyMarkup token).flatMap Markup.plain =
      (Terminal.bodyFragment token).text.toList ++
        Fragment.chars (Terminal.tab token.isKeyword) := by
  cases token with
  | lineBreak => exact absurd rfl h
  | punctuation text =>
    by_cases hcomma : text = ","
    · subst hcomma
      rfl
    · simp [bodyMarkup, Terminal.bodyFragment, Markup.plain, Fragment.text, Token.isKeyword,
        Terminal.tab]
  | keyword | hex | typeName | var | varAddress | unknown =>
    simp [bodyMarkup, hex, Markup.span, Markup.enclose, Markup.plain, Terminal.bodyFragment,
      Terminal.hexFragment, Fragment.text, Token.isKeyword, Terminal.tab, Token.text]

theorem plain_cell (columns : Columns) (column : Column) (token : Token) :
    (cell columns column token).flatMap Markup.plain =
      Fragment.chars (Terminal.cell columns column token) := by
  cases hany : columns.showsAny <;> cases hshows : columns.shows column <;> cases column <;>
    simp [cell, hany, hshows, hex, Markup.span, Markup.enclose, Markup.plain, Terminal.cell,
      Terminal.hexFragment, Fragment.text]

/-- Token by token: the tab that a terminal still owes is on the page already, and where
    no token follows it is deleted. -/
theorem dropTabs_body (tabDue : Bool) {tokens : List Token}
    (h : ∀ token ∈ tokens, Clean token.text) (rest : List Char) :
    dropTabs (Fragment.chars (Terminal.tab tabDue) ++
        ((tokens.flatMap bodyMarkup).flatMap Markup.plain ++ '\n' :: rest)) =
      Fragment.chars (Terminal.bodyLine tabDue tokens) ++ '\n' :: dropTabs rest := by
  induction tokens generalizing tabDue with
  | nil => cases tabDue <;> rfl
  | cons token tokens ih =>
    obtain ⟨htoken, htokens⟩ := List.forall_mem_cons.mp h
    have hne : token ≠ .lineBreak := by
      rintro rfl
      exact absurd htoken (by decide)
    have hclean := Terminal.clean_bodyFragment htoken
    have hrest := ih token.isKeyword htokens
    generalize htext : (Terminal.bodyFragment token).text = text at hclean
    have hline : Fragment.chars (Terminal.bodyLine tabDue (token :: tokens)) =
        Fragment.chars (Terminal.tab tabDue) ++
          (text.toList ++ Fragment.chars (Terminal.bodyLine token.isKeyword tokens)) := by
      simp [Terminal.bodyLine, htext]
    have hpage : ((token :: tokens).flatMap bodyMarkup).flatMap Markup.plain ++ '\n' :: rest =
        text.toList ++ (Fragment.chars (Terminal.tab token.isKeyword) ++
          ((tokens.flatMap bodyMarkup).flatMap Markup.plain ++ '\n' :: rest)) := by
      rw [List.flatMap_cons, List.flatMap_append, plain_bodyMarkup hne, htext]
      simp only [List.append_assoc]
    rw [hpage, hline, dropTabs_append_of_head, dropTabs_append (hclean.not_mem (by decide)), hrest]
    · simp only [List.append_assoc]
    · cases tabDue <;> simp [Terminal.tab, Fragment.text]
    · exact hclean.head?_append_ne (by decide) _

theorem lineFeed_not_mem_cell (columns : Columns) (column : Column) (value : UInt16) :
    '\n' ∉ Fragment.chars (Terminal.cell columns column (.word value)) := by
  have hclean : Clean (Token.word value).text := clean_numeral 4 value.toNat
  have hdigits := hclean.not_mem (by decide : '\n' ∈ layoutCharacters)
  unfold Terminal.cell
  split
  · simpa [Terminal.hexFragment, Fragment.text] using hdigits
  · simp

theorem dropTabs_line (columns : Columns) {i : Instruction} (h : i.WellFormed) (rest : List Char) :
    dropTabs ((line columns i).flatMap Markup.plain ++ rest) =
      Fragment.chars (Terminal.line columns i) ++ dropTabs rest := by
  have hbody := dropTabs_body false h.clean_body rest
  rw [show Fragment.chars (Terminal.tab false) = [] from rfl, List.nil_append] at hbody
  -- The body begins with the mnemonic, so the tabs of the columns stay.
  have hhead : ((i.body.flatMap bodyMarkup).flatMap Markup.plain ++ '\n' :: rest).head? ≠
      some '\n' := by
    have hclean := h.clean_head
    have hne : i.head ≠ .lineBreak := by
      intro hbreak
      rw [hbreak] at hclean
      exact absurd hclean (by decide)
    rw [Instruction.body, List.flatMap_cons, List.flatMap_append, plain_bodyMarkup hne,
      List.append_assoc, List.append_assoc]
    exact (Terminal.clean_bodyFragment hclean).head?_append_ne (by decide) _
  have hcells : '\n' ∉ Fragment.chars (Terminal.cell columns .address (.word i.address)) ++
      Fragment.chars (Terminal.cell columns .opcode (.word i.opcode)) := by
    rw [List.mem_append]
    exact not_or.mpr ⟨lineFeed_not_mem_cell _ _ _, lineFeed_not_mem_cell _ _ _⟩
  have hpage : (line columns i).flatMap Markup.plain ++ rest =
      (Fragment.chars (Terminal.cell columns .address (.word i.address)) ++
        Fragment.chars (Terminal.cell columns .opcode (.word i.opcode))) ++
        ((i.body.flatMap bodyMarkup).flatMap Markup.plain ++ '\n' :: rest) := by
    simp only [line, List.flatMap_append, plain_cell, List.append_assoc]
    rfl
  rw [hpage, dropTabs_append_of_head hcells hhead, hbody, Terminal.line]
  simp [Fragment.text]

theorem dropTabs_listing (columns : Columns) {listing : Listing}
    (h : ∀ i ∈ listing, i.WellFormed) (rest : List Char) :
    dropTabs ((listing.flatMap (line columns)).flatMap Markup.plain ++ rest) =
      Fragment.chars (listing.flatMap (Terminal.line columns)) ++ dropTabs rest := by
  induction listing with
  | nil => rfl
  | cons i listing ih =>
    obtain ⟨hfirst, hothers⟩ := List.forall_mem_cons.mp h
    rw [List.flatMap_cons, List.flatMap_cons, List.flatMap_append, Fragment.chars_append,
      List.append_assoc, List.append_assoc, dropTabs_line columns hfirst, ih hothers]

theorem strip_lines (options : Options) {listing : Listing} (h : ∀ i ∈ listing, i.WellFormed)
    (rest : List Char) :
    deleteSpans '<' '>' false
        (breakLines ((String.join (listing.map (writer options).lineText)).toList ++ rest)) =
      (listing.flatMap (line options.columns)).flatMap Markup.plain ++
        deleteSpans '<' '>' false (breakLines rest) := by
  rw [toList_lines]
  apply Markup.strip_pieces
  intro m hm
  obtain ⟨i, hi, hmem⟩ := List.mem_flatMap.mp hm
  exact tidy_line options.columns (h i hi) m hmem

end Page

theorem Terminal.chars_lines {options : Options} (hformat : options.format ≠ .ansi)
    (listing : Listing) :
    (String.join (listing.map (Terminal.writer options).lineText)).toList =
      Fragment.chars (listing.flatMap (Terminal.line options.columns)) := by
  rw [Terminal.toList_lines, Terminal.palette?, if_neg hformat]
  simp only [Fragment.write_none]
  rfl

theorem Terminal.toList_output {options : Options} {image : Image} {listing : Listing}
    (hformat : options.format = .text) (hheader : options.header = false)
    (h : (disassemble image).value = .ok listing) :
    (render options image).value.output.toList =
      Fragment.chars (listing.flatMap (Terminal.line options.columns)) := by
  rw [Terminal.output_eq (by simp [hformat]) h, if_neg (by simp [hheader]), String.empty_append,
    Terminal.chars_lines (by simp [hformat])]

theorem Page.toList_plainText_output {options : Options} {image : Image} {listing : Listing}
    (hformat : options.format = .html) (hheader : options.header = false)
    (hsheet : options.stylesheet = false) (h : (disassemble image).value = .ok listing) :
    (Page.plainText (render options image).value.output).toList =
      Fragment.chars (listing.flatMap (Terminal.line options.columns)) := by
  have hwell := wellFormed_of_disassemble h
  have hopening : Page.opening options =
      [.opening .pre none, .opening .division (some ⟨"DisassemblyBox", .double⟩)] := by
    simp [Page.opening, Page.stylesheet, hheader, hsheet]
  have htidy : ∀ m ∈ Page.opening options, m.Tidy := by
    simp [hopening, Markup.Tidy]
  have hstart : (String.join ((Page.opening options).map Markup.write)).toList =
      (Page.opening options).flatMap fun m => m.write.toList := by
    rw [String.toList_join, List.flatMap_map]
  have hend : deleteSpans '<' '>' false (Page.breakLines "</div></pre>".toList) = [] := by decide
  rw [Page.output_eq hformat h, Page.plainText, String.toList_ofList, String.toList_append,
    String.toList_append, hstart, List.append_assoc, Markup.strip_pieces htidy,
    Page.strip_lines options hwell, hend, hopening]
  simpa [Markup.plain] using Page.dropTabs_listing options.columns hwell []

/-- Pages and terminals show the same listing. For an image that has one, the page
    without a header and a style sheet, with line-break tags turned into line feeds, all
    other tags deleted, and with them a tab in front of a line feed, is the terminal text
    without a header, for every choice of columns. -/
theorem plainText_page_eq_terminal (options others : Options) (image : Image) (listing : Listing)
    (h : (disassemble image).value = .ok listing) :
    Page.plainText
        (render { options with format := .html, header := false, stylesheet := false }
          image).value.output =
      (render { others with format := .text, columns := options.columns, header := false }
        image).value.output := by
  rw [← String.toList_inj, Page.toList_plainText_output rfl rfl rfl h,
    Terminal.toList_output rfl rfl h]

/-- A keyword at the end of a line, a variable, a type and an unknown opcode. -/
theorem plainText_page_eq_terminal_lines :
    let image : Image := [0x05, 0x11, 0x01, 0x00, 0x00, 0x05, 0x34, 0x12, 0x01, 0xFF, 0x00]
    let listing : Listing := [⟨0, 0x1105, some "mov", [.var 0x0001, .popped]⟩,
      ⟨4, 0x0500, some "vnew", [.var 0x1234, .dataType .u16]⟩, ⟨9, 0x00FF, none, []⟩]
    (disassemble image).value = .ok listing ∧
    Page.plainText
        (render { format := .html, header := false } image).value.output =
      "$0000\t$1105\tmov\tVAR_0001, pop\n" ++
      "$0004\t$0500\tvnew\tVAR_1234, u16\n" ++
      "$0009\t$00FF\tunknown\n" := by
  intro image listing
  have hvalue : (disassemble image).value = .ok listing := by
    simp only [image, listing]
    with_unfolding_all rfl
  refine ⟨hvalue, ?_⟩
  have htext := plainText_page_eq_terminal {} {} image listing hvalue
  exact htext.trans (by decide +kernel)

end Disassembly
