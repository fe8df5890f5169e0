import Disassembly.Proofs.LineLayout

/-!
# Options do not interfere

What an option can change is settled by looking at single events. Two writers that move
alike and write the same text about every event of an image write the same about the image
(`Page.output_congr`, `Terminal.output_congr`), so an option that no event depends on has
no influence at all.

A style sheet is written with the event that opens the text about an image, be it a start
or the message that the image is too long. There is at most one such event and it comes
first (`Image.calls_eq_cons`), so all of the style sheet stands in front and what follows
is the page without it (`options_do_not_interfere`).
-/

namespace Disassembly

variable {σ : Type}

/-! ### Writers that differ in few events -/

namespace Writer

variable {w w' : Writer σ}

/-- Writers that move alike write the same if they do so event by event. -/
theorem write_congr (hnext : w.next = w'.next) {events : List Event}
    (htext : ∀ state, ∀ event ∈ events, w.text state event = w'.text state event) (state : σ) :
    w.write state events = w'.write state events := by
  induction events generalizing state with
  | nil => rfl
  | cons event events ih =>
    have hfirst := htext state event List.mem_cons_self
    have hothers : ∀ state, ∀ event ∈ events, w.text state event = w'.text state event := by
      intro state other hother
      exact htext state other (List.mem_cons_of_mem _ hother)
    rw [write_cons, write_cons, hfirst, hnext, ih hothers]

/-- What one of them writes in front of the first event stands in front of all. -/
theorem text_write_cons_of_front (hnext : w.next = w'.next) {front : String} {state : σ}
    {first : Event} {others : List Event}
    (hfirst : w.text state first = front ++ w'.text state first)
    (hothers : ∀ state, ∀ event ∈ others, w.text state event = w'.text state event) :
    (w.write state (first :: others)).text = front ++ (w'.write state (first :: others)).text := by
  rw [write_cons, write_cons, hfirst, hnext, write_congr hnext hothers]
  exact String.append_assoc

end Writer

/-! ### The event that opens a text -/

/-- The text about an image opens with this event. -/
def Event.opens : Event → Bool
  | start | oversize _ => true
  | token _ | finish => false

/-- Whatever there is to write about an image has one opening event, which comes first. -/
theorem Image.calls_eq_cons {image : Image} (h : image.calls ≠ []) :
    ∃ first others, image.calls = first :: others ∧ first.opens = true ∧
      ∀ event ∈ others, event.opens = false := by
  rw [Image.calls_eq] at h ⊢
  generalize (disassemble image).value = result at h ⊢
  rcases result with (length | ⟨offset, length⟩) | listing
  · exact ⟨.oversize length, [], rfl, rfl, by simp⟩
  · exact absurd rfl h
  · refine ⟨.start, listing.tokens.map .token ++ [.finish], rfl, rfl, ?_⟩
    intro event hevent
    rcases List.mem_append.mp hevent with htoken | hfinish
    · obtain ⟨token, -, rfl⟩ := List.mem_map.mp htoken
      rfl
    · rw [List.mem_singleton.mp hfinish]
      rfl

/-- Something is written about an image exactly when it has a listing or is too long. -/
theorem Image.calls_ne_nil_iff {image : Image} :
    image.calls ≠ [] ↔
      (∃ listing, (disassemble image).value = .ok listing) ∨ Image.sizeLimit ≤ image.length := by
  rw [Image.calls_eq, Ne, Event.ofResult_eq_nil_iff]
  rcases disassemble_cases image with
    ⟨hover, hvalue⟩ | ⟨-, listing, -, hvalue⟩ | ⟨hsize, -, hvalue⟩
  · simp [hvalue, hover]
  · simp [hvalue]
  · simp [hvalue, hsize]

/-- An image without a listing is written about in a message at most. -/
theorem Image.eq_oversize_of_mem_calls {image : Image} {e : DecodeError}
    (h : (disassemble image).value = .error e) {event : Event} (hevent : event ∈ image.calls) :
    ∃ length, event = .oversize length := by
  rcases Image.calls_of_error h with hnil | ⟨length, hover⟩
  · rw [hnil] at hevent
    cases hevent
  · rw [hover] at hevent
    exact ⟨length, List.mem_singleton.mp hevent⟩

/-! ### Pages -/

/-- The style sheet as it is written. -/
def Palette.styleBlock (palette : Palette) : String :=
  "<style>" ++ palette.rules ++ "</style>"

namespace Page

theorem output_congr {options options' : Options} {image : Image}
    (hformat : options.format = .html) (hformat' : options'.format = .html)
    (hmarkup : ∀ state, ∀ event ∈ image.calls,
      markup options state event = markup options' state event) :
    (render options image).value.output = (render options' image).value.output := by
  have hnext : (writer options).next = (writer options').next := rfl
  have htext : ∀ state, ∀ event ∈ image.calls,
      (writer options).text state event = (writer options').text state event := by
    intro state event hevent
    simp only [writer, hmarkup state event hevent]
  rw [output_eq_write hformat, output_eq_write hformat', Writer.write_congr hnext htext]

/-- A style sheet is written when the text is opened and at no other event. -/
theorem markup_stylesheet (options : Options) (state : State) (event : Event) :
    markup { options with stylesheet := true } state event =
      (if event.opens then Markup.enclose .style none [.text options.palette.rules] else []) ++
        markup { options with stylesheet := false } state event := by
  cases event with
  | start => simp [markup, opening, stylesheet, Event.opens]
  | oversize length => simp [markup, banner, stylesheet, Event.opens]
  | finish => rfl
  | token token => cases state <;> rfl

theorem markup_palette (options : Options) (palette : Palette) (state : State) (event : Event) :
    markup { options with stylesheet := false, palette } state event =
      markup { options with stylesheet := false } state event := by
  cases event with
  | start => simp only [markup, opening, stylesheet, Bool.false_eq_true, if_false]
  | oversize length => simp only [markup, banner, stylesheet, Bool.false_eq_true, if_false]
  | finish => rfl
  | token token => cases state <;> rfl

theorem join_style (palette : Palette) :
    String.join ((Markup.enclose .style none [.text palette.rules]).map Markup.write) =
      palette.styleBlock := by
  simp [Markup.enclose, Markup.write, Element.name, Palette.styleBlock, String.join_cons,
    String.append_assoc]

/-- Without a style sheet a page does not depend on the palette. -/
theorem output_palette {options : Options} (hformat : options.format = .html) (image : Image)
    (palette : Palette) :
    (render { options with stylesheet := false, palette } image).value.output =
      (render { options with stylesheet := false } image).value.output := by
  apply output_congr
  · exact hformat
  · exact hformat
  · intro state event _
    exact markup_palette options palette state event

/-- All of the style sheet stands in front of a page, or of the message in its place. -/
theorem output_stylesheet {options : Options} (hformat : options.format = .html) {image : Image}
    (h : image.calls ≠ []) :
    (render { options with stylesheet := true } image).value.output =
      options.palette.styleBlock ++
        (render { options with stylesheet := false } image).value.output := by
  have hnext : (writer { options with stylesheet := true }).next =
      (writer { options with stylesheet := false }).next := rfl
  have htext (state : State) (event : Event) :
      (writer { options with stylesheet := true }).text state event =
        (if event.opens then options.palette.styleBlock else "") ++
          (writer { options with stylesheet := false }).text state event := by
    simp only [writer, markup_stylesheet, List.map_append, String.join_append]
    cases event.opens
    · rfl
    · exact congrArg (· ++ _) (join_style options.palette)
  have hwrite (stylesheet : Bool) := @output_eq_write { options with stylesheet } hformat image
  obtain ⟨first, others, hcalls, hfirst, hothers⟩ := Image.calls_eq_cons h
  rw [hwrite true, hwrite false, hcalls]
  apply Writer.text_write_cons_of_front hnext
  · rw [htext, if_pos hfirst]
  · intro state event hevent
    rw [htext, hothers event hevent]
    exact String.empty_append

end Page

/-! ### Terminal listings -/

namespace Terminal

theorem output_congr {options options' : Options} {image : Image}
    (hformat : options.format ≠ .html) (hformat' : options'.format ≠ .html)
    (hpalette : palette? options = palette? options')
    (hfragments : ∀ state, ∀ event ∈ image.calls,
      fragments options.columns options.header state event =
        fragments options'.columns options'.header state event) :
    (render options image).value.output = (render options' image).value.output := by
  have hnext : (writer options).next = (writer options').next := rfl
  have htext : ∀ state, ∀ event ∈ image.calls,
      (writer options).text state event = (writer options').text state event := by
    intro state event hevent
    simp only [writer, hpalette, hfragments state event hevent]
  rw [output_eq_write hformat, output_eq_write hformat', Writer.write_congr hnext htext]

/-- Text without colours does not depend on the palette. -/
theorem output_palette {options : Options} (hformat : options.format = .text) (image : Image)
    (palette : Palette) :
    (render { options with palette } image).value.output = (render options image).value.output := by
  have hplain : options.format ≠ .html ∧ options.format ≠ .ansi := by
    rw [hformat]
    decide
  apply output_congr
  · exact hplain.1
  · exact hplain.1
  · simp only [palette?, if_neg hplain.2]
  · intro state event _
    rfl

theorem output_stylesheet {options : Options} (hformat : options.format ≠ .html) (image : Image)
    (stylesheet : Bool) :
    (render { options with stylesheet } image).value.output =
      (render options image).value.output := by
  apply output_congr
  · exact hformat
  · exact hformat
  · rfl
  · intro state event _
    rfl

/-- The caption stands on a line of its own in front of the listing. -/
theorem output_header {options : Options} (hformat : options.format ≠ .html) {image : Image}
    {listing : Listing} (h : (disassemble image).value = .ok listing) :
    (render { options with header := true } image).value.output =
      options.columns.caption ++ "\n" ++
        (render { options with header := false } image).value.output := by
  have hlines : (writer { options with header := true }).lineText =
      (writer { options with header := false }).lineText := by
    funext i
    rw [lineText_eq, lineText_eq]
    rfl
  have houtput (header : Bool) := @output_eq { options with header } image listing hformat h
  simp only [houtput, hlines, if_true, Bool.false_eq_true, if_false, String.empty_append]

end Terminal

/-! ### Images without a listing -/

/-- The output about an image without a listing depends on the format, the style sheet and
    the palette. No other option has a part in it. -/
theorem output_eq_of_error {options options' : Options} {image : Image} {e : DecodeError}
    (h : (disassemble image).value = .error e) (hformat : options'.format = options.format)
    (hstylesheet : options'.stylesheet = options.stylesheet)
    (hpalette : options'.palette = options.palette) :
    (render options' image).value.output = (render options image).value.output := by
  by_cases hhtml : options.format = .html
  · apply Page.output_congr
    · exact hformat.trans hhtml
    · exact hhtml
    · intro state event hevent
      obtain ⟨length, rfl⟩ := Image.eq_oversize_of_mem_calls h hevent
      simp only [Page.markup, Page.banner, Page.stylesheet, hstylesheet, hpalette]
  · apply Terminal.output_congr
    · rw [hformat]
      exact hhtml
    · exact hhtml
    · simp only [Terminal.palette?, hformat, hpalette]
    · intro state event hevent
      obtain ⟨length, rfl⟩ := Image.eq_oversize_of_mem_calls h hevent
      simp only [Terminal.fragments]

/-- The options of a presentation do not interfere with each other or with the listing. A
    page with a style sheet is the style sheet, which depends on the palette only, followed
    by the page without it, be it a listing or the message that the image is too long;
    about an image that ends too early nothing is written either way. Without a style sheet
    a page does not depend on the palette, and nor does text without colours. The style
    sheet has no influence on text, with colours or without. A header puts the caption and
    a line feed in front of a text listing, and on the output about an image without a
    listing it has no influence in any format. -/
theorem options_do_not_interfere (image : Image) (options : Options) :
    let output (options : Options) := (render options image).value.output
    let listed := ∃ listing, (disassemble image).value = .ok listing
    (options.format = .html →
      (listed ∨ 65355 ≤ image.length →
        output { options with stylesheet := true } =
          options.palette.styleBlock ++ output { options with stylesheet := false }) ∧
      (¬ listed → image.length < 65355 →
        output { options with stylesheet := true } = "" ∧
        output { options with stylesheet := false } = "") ∧
      ∀ palette, output { options with stylesheet := false, palette } =
        output { options with stylesheet := false }) ∧
    (options.format = .text → ∀ palette, output { options with palette } = output options) ∧
    (options.format ≠ .html →
      (∀ stylesheet, output { options with stylesheet } = output options) ∧
      (listed → output { options with header := true } =
        options.columns.caption ++ "\n" ++ output { options with header := false })) ∧
    (¬ listed → ∀ header, output { options with header } = output options) := by
  intro output listed
  refine ⟨?_, ?_, ?_, ?_⟩
  · intro hformat
    refine ⟨?_, ?_, ?_⟩
    · intro hwritten
      exact Page.output_stylesheet hformat (Image.calls_ne_nil_iff.mpr hwritten)
    · intro hlisted hsize
      have hnil : image.calls = [] := by
        apply Classical.byContradiction
        intro hcalls
        rcases Image.calls_ne_nil_iff.mp hcalls with hlist | hover
        · exact hlisted hlist
        · exact Nat.not_le.mpr hsize hover
      have hempty (stylesheet : Bool) : output { options with stylesheet } = "" := by
        have hwrite := @Page.output_eq_write { options with stylesheet } hformat image
        rw [hnil] at hwrite
        exact hwrite
      exact ⟨hempty true, hempty false⟩
    · intro palette
      exact Page.output_palette hformat image palette
  · intro hformat palette
    exact Terminal.output_palette hformat image palette
  · intro hformat
    refine ⟨?_, ?_⟩
    · intro stylesheet
      exact Terminal.output_stylesheet hformat image stylesheet
    · rintro ⟨listing, hvalue⟩
      exact Terminal.output_header hformat hvalue
  · intro hlisted header
    cases hvalue : (disassemble image).value with
    | ok listing => exact absurd ⟨listing, hvalue⟩ hlisted
    | error e => exact output_eq_of_error hvalue rfl rfl rfl

/-- A page with a style sheet and a text with a caption, both found from what is written
    without them. -/
theorem options_do_not_interfere_return :
    let image : Image := [0x01, 0x00]
    let page : Options := { format := .html, columns := ⟨0⟩, header := false }
    (∃ listing, (disassemble image).value = .ok listing) ∧ page.format = .html ∧
      (render { page with stylesheet := true } image).value.output = page.palette.styleBlock ++
        "<pre><div class=\"DisassemblyBox\"><span class=\"style_keyword\">ret</span>\t<br/></div></pre>" ∧
      (render {} image).value.output = "Addr\tOp\tDisassembled\n$0000\t$0001\tret\n" := by
  intro image page
  have hlisted : ∃ listing, (disassemble image).value = .ok listing :=
    ⟨[⟨0, 0x0001, some "ret", []⟩], by with_unfolding_all rfl⟩
  have hpage : (render { page with stylesheet := false } image).value.output =
      "<pre><div class=\"DisassemblyBox\"><span class=\"style_keyword\">ret</span>\t<br/></div></pre>" := by
    decide +kernel
  have htext : (render { header := false } image).value.output = "$0000\t$0001\tret\n" := by
    decide +kernel
  obtain ⟨hhtml, -⟩ := options_do_not_interfere image page
  obtain ⟨-, -, hterminal, -⟩ := options_do_not_interfere image {}
  have hstyled := (hhtml rfl).1 (Or.inl hlisted)
  have hcaption := (hterminal (by decide)).2 hlisted
  simp only [hpage] at hstyled
  simp only [htext] at hcaption
  exact ⟨hlisted, rfl, hstyled, hcaption.trans (by decide +kernel)⟩

end Disassembly
