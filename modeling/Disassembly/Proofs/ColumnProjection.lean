import Disassembly.Proofs.Colours
import Disassembly.Proofs.OptionIndependence
import Disassembly.Proofs.TokenGrammar

/-!
# Hiding columns is a projection

With both columns, every line of a terminal listing, the caption included, has two fields
in front: an address and an opcode, each with a tab behind it. A choice of columns then
only decides which of the two fields are kept. So the text with fewer columns is found
from the text with both by deleting fields, line by line (`Terminal.hideFields`), without
another look at the image.

The proof goes through the rows of a listing, which are the same for all columns
(`Terminal.rows`). In text they can be told apart since no field has a tab or a line feed
in it (`Terminal.Row.Tabular`).

Columns enter the output of all formats only through the question whether a column is
shown, so the bits that stand for no column mean nothing (`render_congr`).
-/

namespace Disassembly

namespace Terminal

/-! ### Fields of a line -/

/-- The characters of a line up to its first tab. -/
def field (line : List Char) : List Char := line.takeWhile (· != '\t')

/-- What stands behind the first tab of a line. -/
def behind (line : List Char) : List Char := (line.dropWhile (· != '\t')).tail

/-- Delete the first field of a line with its tab if the bit for the address column is
    clear, and the second field with its tab if the bit for the opcode column is. -/
def hideFields (bits : UInt8) (line : List Char) : List Char :=
  (if bits &&& 1 = 0 then [] else field line ++ ['\t']) ++
    (if bits &&& 2 = 0 then [] else field (behind line) ++ ['\t']) ++ behind (behind line)

/-- A tab that does not stand in a field shows where the field ends. -/
theorem field_behind_append {text : List Char} (h : '\t' ∉ text) (rest : List Char) :
    field (text ++ '\t' :: rest) = text ∧ behind (text ++ '\t' :: rest) = rest := by
  have hall : ∀ c ∈ text, (c != '\t') = true := by
    intro c hc
    rw [bne_iff_ne]
    rintro rfl
    exact h hc
  rw [field, behind, List.takeWhile_append_of_pos hall, List.dropWhile_append_of_pos hall]
  simp

/-! ### Rows -/

/-- A line in its parts, whatever columns are shown. -/
structure Row where
  address : List Char
  opcode : List Char
  rest : List Char
deriving DecidableEq, Repr

namespace Row

/-- The line of a row. A field that is shown has a tab behind it. -/
def line (columns : Columns) (row : Row) : List Char :=
  (if columns.shows .address then row.address ++ ['\t'] else []) ++
    (if columns.shows .opcode then row.opcode ++ ['\t'] else []) ++ row.rest

/-- Tabs and line feeds do not come from the fields. -/
structure Tabular (row : Row) : Prop where
  address : '\t' ∉ row.address ∧ '\n' ∉ row.address
  opcode : '\t' ∉ row.opcode ∧ '\n' ∉ row.opcode
  rest : '\n' ∉ row.rest

theorem line_all (row : Row) :
    row.line .all = row.address ++ '\t' :: (row.opcode ++ '\t' :: row.rest) := by
  have haddress : Columns.all.shows .address = true := by decide
  have hopcode : Columns.all.shows .opcode = true := by decide
  simp [line, haddress, hopcode]

theorem Tabular.lineFeed_not_mem {row : Row} (h : row.Tabular) (columns : Columns) :
    '\n' ∉ row.line columns := by
  have haddress := h.address.2
  have hopcode := h.opcode.2
  have hrest := h.rest
  unfold line
  split <;> split <;> simp_all

/-- From the line with both columns, deleting fields gives all others. -/
theorem Tabular.hideFields_line {row : Row} (h : row.Tabular) (columns : Columns) :
    hideFields columns.bits (row.line .all) = row.line columns := by
  obtain ⟨haddress, hbehind⟩ := field_behind_append h.address.1 (row.opcode ++ '\t' :: row.rest)
  obtain ⟨hopcode, hrest⟩ := field_behind_append h.opcode.1 row.rest
  rw [line_all, hideFields, haddress, hbehind, hopcode, hrest, line]
  simp [Columns.shows, Column.flag]

end Row

/-! ### Rows of a listing -/

/-- The row of an instruction, with the colours of a palette if there is one. -/
def row (palette? : Option Palette) (i : Instruction) : Row where
  address := ((hexFragment (.word i.address)).write palette?).toList
  opcode := ((hexFragment (.word i.opcode)).write palette?).toList
  rest := (bodyLine false i.body).flatMap fun f => (f.write palette?).toList

def captionRow : Row := ⟨"Addr".toList, "Op".toList, "Disassembled".toList⟩

def rows (palette? : Option Palette) (header : Bool) (listing : Listing) : List Row :=
  (if header then [captionRow] else []) ++ listing.map (row palette?)

theorem toList_caption (columns : Columns) :
    columns.caption.toList = captionRow.line columns := by
  unfold Columns.caption Row.line
  split <;> split <;> rfl

theorem toList_lineText (options : Options) (i : Instruction) :
    ((writer options).lineText i).toList =
      (row (palette? options) i).line options.columns ++ ['\n'] := by
  rw [lineText_eq, String.toList_join, List.flatMap_map, Terminal.line, Row.line, row]
  unfold cell
  split <;> split <;> simp [Fragment.write]

/-- The output about an image that has a listing is made of its rows, for all columns. -/
theorem toList_output_eq_rows {options : Options} {image : Image} {listing : Listing}
    (hformat : options.format ≠ .html) (h : (disassemble image).value = .ok listing) :
    (render options image).value.output.toList =
      ((rows (palette? options) options.header listing).map (Row.line options.columns)).flatMap
        (· ++ ['\n']) := by
  have hlines : (String.join (listing.map (writer options).lineText)).toList =
      ((listing.map (row (palette? options))).map (Row.line options.columns)).flatMap
        (· ++ ['\n']) := by
    rw [String.toList_join, List.flatMap_map, List.flatMap_map, List.flatMap_map]
    simp only [toList_lineText]
  rw [output_eq hformat h, String.toList_append, hlines, rows, List.map_append,
    List.flatMap_append]
  cases options.header <;> simp [toList_caption]

end Terminal

theorem Color.not_mem_foreground {c : Char} (hc : c = '\t' ∨ c = '\n') (color : Color) :
    c ∉ color.foreground.toList := by
  obtain ⟨hdigit, hfirst, hbetween, hlast⟩ : c.isDigit = false ∧ c ∉ "\x1b[38;2;".toList ∧
      c ∉ ";".toList ∧ c ∉ "m".toList := by
    rcases hc with rfl | rfl <;> decide
  have hparts (n : Nat) : c ∉ (toString n).toList := not_mem_toString hdigit n
  simp only [foreground, String.toList_append, List.mem_append, not_or]
  exact ⟨⟨⟨⟨⟨⟨hfirst, hparts _⟩, hbetween⟩, hparts _⟩, hbetween⟩, hparts _⟩, hlast⟩

/-- Colours bring no tabs and no line feeds. -/
theorem Fragment.not_mem_write {c : Char} (hc : c = '\t' ∨ c = '\n') (palette? : Option Palette)
    {f : Fragment} (h : c ∉ f.text.toList) : c ∉ (f.write palette?).toList := by
  have hreset : c ∉ Color.reset.toList := by
    rcases hc with rfl | rfl <;> decide
  rcases f with text | ⟨style, text⟩
  · exact h
  · cases palette? with
    | none => exact h
    | some palette =>
      have htext : c ∉ text.toList := h
      simp [write, Color.not_mem_foreground hc, htext, hreset]

namespace Terminal

theorem not_mem_write_hexFragment {c : Char} (hc : c = '\t' ∨ c = '\n') (palette? : Option Palette)
    (word : UInt16) : c ∉ ((hexFragment (.word word)).write palette?).toList := by
  have hlayout : c ∈ layoutCharacters := by
    rcases hc with rfl | rfl <;> decide
  have hclean : Clean (hexFragment (.word word)).text :=
    Clean.append (by decide) (clean_numeral 4 word.toNat)
  exact Fragment.not_mem_write hc palette? (hclean.not_mem hlayout)

theorem tabular_row (palette? : Option Palette) {i : Instruction} (h : i.WellFormed) :
    (row palette? i).Tabular where
  address := ⟨not_mem_write_hexFragment (by decide) _ _, not_mem_write_hexFragment (by decide) _ _⟩
  opcode := ⟨not_mem_write_hexFragment (by decide) _ _, not_mem_write_hexFragment (by decide) _ _⟩
  rest := by
    intro hmem
    obtain ⟨f, hf, hwrite⟩ := List.mem_flatMap.mp hmem
    refine Fragment.not_mem_write (by decide) palette? ?_ hwrite
    rcases mem_bodyLine hf with rfl | ⟨token, htoken, rfl⟩
    · decide
    · exact (clean_bodyFragment (h.clean_body token htoken)).not_mem (by decide)

theorem length_rows (palette? : Option Palette) (header : Bool) (listing : Listing) :
    (rows palette? header listing).length = listing.length + (if header then 1 else 0) := by
  cases header <;> simp [rows]

theorem tabular_rows (palette? : Option Palette) (header : Bool) {listing : Listing}
    (h : ∀ i ∈ listing, i.WellFormed) : ∀ row ∈ rows palette? header listing, row.Tabular := by
  intro entry hentry
  rcases List.mem_append.mp hentry with hcaption | hline
  · cases header with
    | false => cases hcaption
    | true =>
      obtain rfl : entry = captionRow := List.mem_singleton.mp hcaption
      exact ⟨by decide, by decide, by decide⟩
  · obtain ⟨i, hi, rfl⟩ := List.mem_map.mp hline
    exact tabular_row palette? (h i hi)

end Terminal

/-! ### Bits that stand for no column -/

theorem Columns.shows_eq_of_flags {c c' : Columns} (h : c.bits &&& 3 = c'.bits &&& 3)
    (column : Column) : c.shows column = c'.shows column := by
  have hflag (bits : UInt8) : bits &&& column.flag = (bits &&& 3) &&& column.flag := by
    rw [UInt8.and_assoc]
    cases column <;> rfl
  rw [Columns.shows, Columns.shows, hflag, h, ← hflag]

section SameColumns

variable {c c' : Columns} (h : ∀ column, c.shows column = c'.shows column)
include h

theorem Columns.caption_congr : c.caption = c'.caption := by
  simp only [caption, h]

theorem Terminal.writer_congr (options : Options) :
    writer { options with columns := c } = writer { options with columns := c' } := by
  have hfragments : fragments c options.header = fragments c' options.header := by
    funext state event
    cases event with
    | start => simp only [fragments, Columns.caption_congr h]
    | token token =>
      cases state with
      | column which => simp only [fragments, h]
      | body tabDue => cases token <;> rfl
    | finish | oversize => rfl
  simp only [writer, hfragments]
  rfl

theorem Page.writer_congr (options : Options) :
    writer { options with columns := c } = writer { options with columns := c' } := by
  have hmarkup : markup { options with columns := c } = markup { options with columns := c' } := by
    funext state event
    cases event with
    | start => simp only [markup, opening, stylesheet, Columns.caption_congr h]
    | token token =>
      cases state with
      | column which => simp only [markup, cell, Columns.showsAny, h]
      | body => rfl
    | finish | oversize => rfl
  simp only [writer, hmarkup]

/-- Columns enter the output of every format only through what they show. -/
theorem render_congr (options : Options) (image : Image) :
    render { options with columns := c } image = render { options with columns := c' } image := by
  simp only [render, Page.writer_congr h, Terminal.writer_congr h]

end SameColumns

/-! ### Images without a listing -/

theorem output_congr_of_error {image : Image} {e : DecodeError}
    (h : (disassemble image).value = .error e) (options : Options) (c c' : Columns) :
    (render { options with columns := c } image).value.output =
      (render { options with columns := c' } image).value.output :=
  output_eq_of_error h rfl rfl rfl

/-- Hiding columns is a projection. About an image that has a listing, the text with both
    columns consists of lines, one for each instruction and one for the caption if there
    is a header, and every line has two fields with a tab behind each of them. With other
    columns the text is the same but for the first fields and their tabs, which are
    deleted if the bit with the value 1 is clear, and the second ones, which are deleted if
    the bit with the value 2 is. This holds with and without colours. All other bits have
    no influence on the output in any format, and for an image without a listing no bit
    has one. -/
theorem hidden_columns_are_deleted_fields (image : Image) :
    (∀ (options : Options) (listing : Listing), options.format ≠ .html →
      (disassemble image).value = .ok listing →
      ∃ lines : List (List Char),
        (render { options with columns := .all } image).value.output.toList.splitOn '\n' =
          lines ++ [[]] ∧
        lines.length = listing.length + (if options.header then 1 else 0) ∧
        (∀ line ∈ lines, ∃ first second rest, '\t' ∉ first ∧ '\t' ∉ second ∧
          line = first ++ '\t' :: (second ++ '\t' :: rest)) ∧
        ∀ columns : Columns, (render { options with columns } image).value.output.toList =
          (lines.map (Terminal.hideFields columns.bits)).flatMap (· ++ ['\n'])) ∧
    (∀ (options : Options) (c c' : Columns), c.bits &&& 3 = c'.bits &&& 3 →
      (render { options with columns := c } image).value.output =
        (render { options with columns := c' } image).value.output) ∧
    ((¬ ∃ listing, (disassemble image).value = .ok listing) →
      ∀ (options : Options) (c c' : Columns),
        (render { options with columns := c } image).value.output =
          (render { options with columns := c' } image).value.output) := by
  refine ⟨?_, ?_, ?_⟩
  · intro options listing hformat hvalue
    have hwell := wellFormed_of_disassemble hvalue
    -- The rows of the listing are the same for all columns.
    let rows := Terminal.rows (Terminal.palette? options) options.header listing
    have htabular : ∀ row ∈ rows, row.Tabular := Terminal.tabular_rows _ _ hwell
    have houtput (columns : Columns) :
        (render { options with columns } image).value.output.toList =
          (rows.map (Terminal.Row.line columns)).flatMap (· ++ ['\n']) :=
      @Terminal.toList_output_eq_rows { options with columns } image listing hformat hvalue
    refine ⟨rows.map (Terminal.Row.line .all), ?_, ?_, ?_, ?_⟩
    · rw [houtput]
      apply splitOn_flatMap_append
      intro line hline
      obtain ⟨row, hrow, rfl⟩ := List.mem_map.mp hline
      exact (htabular row hrow).lineFeed_not_mem .all
    · rw [List.length_map]
      exact Terminal.length_rows _ _ _
    · intro line hline
      obtain ⟨row, hrow, rfl⟩ := List.mem_map.mp hline
      have hfields := htabular row hrow
      exact ⟨row.address, row.opcode, row.rest, hfields.address.1, hfields.opcode.1, row.line_all⟩
    · intro columns
      have hhidden : (rows.map (Terminal.Row.line .all)).map (Terminal.hideFields columns.bits) =
          rows.map (Terminal.Row.line columns) := by
        rw [List.map_map]
        apply List.map_congr_left
        intro row hrow
        exact (htabular row hrow).hideFields_line columns
      rw [houtput, hhidden]
  · intro options c c' hflags
    rw [render_congr (Columns.shows_eq_of_flags hflags)]
  · intro hnone options c c'
    cases hvalue : (disassemble image).value with
    | ok listing => exact absurd ⟨listing, hvalue⟩ hnone
    | error e => exact output_congr_of_error hvalue options c c'

/-- Of three lines the first fields are deleted. The bits of the columns are those of the
    opcode and six that mean nothing. -/
theorem hidden_columns_are_deleted_fields_address :
    let image : Image := [0x00, 0x05, 0x34, 0x12, 0x01, 0xFF, 0x00]
    let listing : Listing := [⟨0, 0x0500, some "vnew", [.var 0x1234, .dataType .u16]⟩,
      ⟨5, 0x00FF, none, []⟩]
    (disassemble image).value = .ok listing ∧
    (render {} image).value.output =
      "Addr\tOp\tDisassembled\n$0000\t$0500\tvnew\tVAR_1234, u16\n$0005\t$00FF\tunknown\n" ∧
    (render { columns := ⟨0xFE⟩ } image).value.output =
      "Op\tDisassembled\n$0500\tvnew\tVAR_1234, u16\n$00FF\tunknown\n" := by
  intro image listing
  have hvalue : (disassemble image).value = .ok listing := by
    simp only [image, listing]
    with_unfolding_all rfl
  obtain ⟨hlisted, -⟩ := hidden_columns_are_deleted_fields image
  obtain ⟨lines, hsplit, -, -, hhidden⟩ := hlisted {} listing (by decide) hvalue
  have houtput : (render {} image).value.output =
      "Addr\tOp\tDisassembled\n$0000\t$0500\tvnew\tVAR_1234, u16\n$0005\t$00FF\tunknown\n" := by
    decide +kernel
  have hlines : lines = ["Addr\tOp\tDisassembled".toList,
      "$0000\t$0500\tvnew\tVAR_1234, u16".toList, "$0005\t$00FF\tunknown".toList] := by
    rw [houtput] at hsplit
    exact List.append_cancel_right (hsplit.symm.trans (by decide +kernel))
  refine ⟨hvalue, houtput, ?_⟩
  rw [← String.toList_inj, hhidden ⟨0xFE⟩, hlines]
  decide +kernel

end Disassembly
