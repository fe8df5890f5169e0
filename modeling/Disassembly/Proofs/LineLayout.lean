import Disassembly.Proofs.TokenText

/-!
# The layout of a line

What the two writers make of one instruction, written down without their states. On a
page the tokens behind the columns stand side by side. On a terminal a keyword makes a
tab due, which is written when another token follows (`Terminal.bodyLine`).

The output about an image that has a listing consists of these lines, between the start
and the finish that the format has (`Page.output_eq`, `Terminal.output_eq`).
-/

namespace Disassembly

def Token.isKeyword : Token → Bool
  | keyword _ => true
  | _ => false

/-- If every line is made of pieces, then so is a listing. -/
theorem Writer.toList_lineTexts {σ π : Type} (w : Writer σ) {pieces : Instruction → List π}
    {write : π → String} (hline : ∀ i, w.lineText i = String.join ((pieces i).map write))
    (listing : Listing) :
    (String.join (listing.map w.lineText)).toList =
      (listing.flatMap pieces).flatMap fun piece => (write piece).toList := by
  induction listing with
  | nil => rfl
  | cons i listing ih =>
    rw [List.map_cons, String.join_cons, String.toList_append, ih, hline, String.toList_join,
      List.flatMap_map, List.flatMap_cons, List.flatMap_append]

/-! ### Terminal lines -/

namespace Terminal

def cell (columns : Columns) (column : Column) (token : Token) : List Fragment :=
  if columns.shows column then [hexFragment token, .plain "\t"] else []

def tab (due : Bool) : List Fragment := if due then [.plain "\t"] else []

/-- The tokens behind the columns. -/
def bodyLine : Bool → List Token → List Fragment
  | _, [] => []
  | tabDue, token :: tokens => tab tabDue ++ bodyFragment token :: bodyLine token.isKeyword tokens

def line (columns : Columns) (i : Instruction) : List Fragment :=
  cell columns .address (.word i.address) ++ cell columns .opcode (.word i.opcode) ++
    bodyLine false i.body ++ [.plain "\n"]

theorem next_body {tabDue : Bool} {token : Token} (h : token ≠ .lineBreak) :
    next (.body tabDue) (.token token) = .body token.isKeyword := by
  cases token with
  | lineBreak => exact absurd rfl h
  | keyword | hex | typeName | var | varAddress | punctuation | unknown => rfl

theorem fragments_body {columns : Columns} {header tabDue : Bool} {token : Token}
    (h : token ≠ .lineBreak) :
    fragments columns header (.body tabDue) (.token token) =
      tab tabDue ++ [bodyFragment token] := by
  cases token with
  | lineBreak => exact absurd rfl h
  | keyword | hex | typeName | var | varAddress | punctuation | unknown => rfl

theorem text_body (options : Options) (tabDue : Bool) {tokens : List Token}
    (h : Token.lineBreak ∉ tokens) :
    ((writer options).write (.body tabDue) ((tokens ++ [Token.lineBreak]).map .token)).text =
      String.join ((bodyLine tabDue tokens ++ [Fragment.plain "\n"]).map
        (Fragment.write (palette? options))) := by
  induction tokens generalizing tabDue with
  | nil => simp [writer, fragments, bodyLine, String.join_cons]
  | cons token tokens ih =>
    obtain ⟨hne, hrest⟩ := not_or.mp (mt List.mem_cons.mpr h)
    have hnext : (writer options).next (.body tabDue) (.token token) = .body token.isKeyword :=
      next_body (Ne.symm hne)
    have htext : (writer options).text (.body tabDue) (.token token) =
        String.join ((tab tabDue ++ [bodyFragment token]).map
          (Fragment.write (palette? options))) := by
      rw [← fragments_body (Ne.symm hne)]
      rfl
    rw [List.cons_append, List.map_cons, Writer.write_cons, hnext, ih _ hrest, htext, bodyLine]
    simp [String.join_append, String.append_assoc]

theorem lineText_eq (options : Options) (i : Instruction) :
    (writer options).lineText i =
      String.join ((line options.columns i).map (Fragment.write (palette? options))) := by
  have hbody := text_body options false i.lineBreak_not_mem_body
  rw [Writer.lineText, (countsTokens options).next_start, i.map_line]
  simp only [Writer.write_cons]
  change String.join ((cell options.columns .address _).map _) ++
    (String.join ((cell options.columns .opcode _).map _) ++
      ((writer options).write (.body false) _).text) = _
  rw [hbody, line]
  simp [String.join_append]

theorem toList_lines (options : Options) (listing : Listing) :
    (String.join (listing.map (writer options).lineText)).toList =
      (listing.flatMap (line options.columns)).flatMap
        fun f => (f.write (palette? options)).toList :=
  (writer options).toList_lineTexts (lineText_eq options) listing

/-- The output about an image is what a fresh writer makes of its events. -/
theorem output_eq_write {options : Options} (hformat : options.format ≠ .html) (image : Image) :
    (render options image).value.output =
      ((writer options).write (.column .address) image.calls).text := by
  cases hcase : options.format with
  | html => exact absurd hcase hformat
  | text | ansi =>
    simp only [render, hcase, Writer.render, Writer.present_value]
    rfl

/-- The output about an image that has a listing is its lines, below a header if there
    is one. -/
theorem output_eq {options : Options} {image : Image} {listing : Listing}
    (hformat : options.format ≠ .html) (h : (disassemble image).value = .ok listing) :
    (render options image).value.output =
      (if options.header then options.columns.caption ++ "\n" else "") ++
        String.join (listing.map (writer options).lineText) := by
  have hrender : (render options image).value.output =
      ((writer options).write (writer options).fresh listing.events).text := by
    rw [output_eq_write hformat, Image.calls_eq, h]
    rfl
  have hfinish : (writer options).text (writer options).fresh .finish = "" := rfl
  have hstart : (writer options).text (writer options).fresh .start =
      if options.header then options.columns.caption ++ "\n" else "" := by
    cases hheader : options.header <;> simp [writer, fragments, hheader, Fragment.write]
  rw [hrender, (countsTokens options).text_events, hfinish, hstart, String.append_empty]

end Terminal

/-! ### Page lines -/

namespace Page

def line (columns : Columns) (i : Instruction) : List Markup :=
  cell columns .address (.word i.address) ++ cell columns .opcode (.word i.opcode) ++
    i.body.flatMap bodyMarkup ++ [.lineBreak]

theorem next_body {token : Token} (h : token ≠ .lineBreak) : next .body (.token token) = .body := by
  cases token with
  | lineBreak => exact absurd rfl h
  | keyword | hex | typeName | var | varAddress | punctuation | unknown => rfl

theorem text_body (options : Options) {tokens : List Token} (h : Token.lineBreak ∉ tokens) :
    ((writer options).write .body ((tokens ++ [Token.lineBreak]).map .token)).text =
      String.join ((tokens.flatMap bodyMarkup ++ [Markup.lineBreak]).map Markup.write) := by
  have htext : ∀ token, (writer options).text .body (.token token) =
      String.join ((bodyMarkup token).map Markup.write) := fun _ => rfl
  induction tokens with
  | nil => simp [htext, bodyMarkup]
  | cons token tokens ih =>
    obtain ⟨hne, hrest⟩ := not_or.mp (mt List.mem_cons.mpr h)
    have hnext : (writer options).next .body (.token token) = .body := next_body (Ne.symm hne)
    rw [List.cons_append, List.map_cons, Writer.write_cons, hnext, ih hrest, htext]
    simp [String.join_append]

theorem lineText_eq (options : Options) (i : Instruction) :
    (writer options).lineText i = String.join ((line options.columns i).map Markup.write) := by
  have hbody := text_body options i.lineBreak_not_mem_body
  rw [Writer.lineText, (countsTokens options).next_start, i.map_line]
  simp only [Writer.write_cons]
  change String.join ((cell options.columns .address _).map _) ++
    (String.join ((cell options.columns .opcode _).map _) ++
      ((writer options).write .body _).text) = _
  rw [hbody, line]
  simp [String.join_append]

theorem toList_lines (options : Options) (listing : Listing) :
    (String.join (listing.map (writer options).lineText)).toList =
      (listing.flatMap (line options.columns)).flatMap fun m => m.write.toList :=
  (writer options).toList_lineTexts (lineText_eq options) listing

/-- The output about an image is what a fresh writer makes of its events. -/
theorem output_eq_write {options : Options} (hformat : options.format = .html) (image : Image) :
    (render options image).value.output =
      ((writer options).write (.column .address) image.calls).text := by
  simp only [render, hformat, Writer.render, Writer.present_value]
  rfl

/-- The output about an image that has a listing is its lines between the opening and
    the end of the page. -/
theorem output_eq {options : Options} {image : Image} {listing : Listing}
    (hformat : options.format = .html) (h : (disassemble image).value = .ok listing) :
    (render options image).value.output =
      String.join ((opening options).map Markup.write) ++
        String.join (listing.map (writer options).lineText) ++ "</div></pre>" := by
  have hrender : (render options image).value.output =
      ((writer options).write (writer options).fresh listing.events).text := by
    rw [output_eq_write hformat, Image.calls_eq, h]
    rfl
  rw [hrender, (countsTokens options).text_events]
  rfl

end Page

end Disassembly
