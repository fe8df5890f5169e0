import Disassembly.Proofs.PlainText

/-!
# Colours are sequences around text

A terminal sequence goes from an escape character to the next letter `m`. With all
sequences deleted, a fragment is the text that it has without colours, and so are the
lines of a listing (`Terminal.deleteSpans_lines`): the text of an instruction has no
escape character of its own.

The same holds of everything that a terminal writer writes. What it writes about events
is made of the same fragments with and without colours (`Terminal.toList_write`). A
coloured fragment has one sequence in front of its text and one behind it, so colours are
switched on and off in turns and none is left on (`colours_only_add_sequences`).
-/

namespace Disassembly

/-! ### Sequences -/

/-- The stretches of a text from a first mark to the next last mark, both included: those
    that `deleteSpans` deletes. In between, the argument in front of the text is what has
    been read of such a stretch. A stretch without an end counts as well. -/
def spans (first last : Char) : Option (List Char) → List Char → List (List Char)
  | none, [] => []
  | some begun, [] => [begun]
  | none, c :: text => spans first last (if c = first then some [c] else none) text
  | some begun, c :: text =>
      if c = last then (begun ++ [c]) :: spans first last none text
      else spans first last (some (begun ++ [c])) text

theorem spans_append {first last : Char} {text rest : List Char} (h : first ∉ text) :
    spans first last none (text ++ rest) = spans first last none rest := by
  induction text with
  | nil => rfl
  | cons c text ih =>
    obtain ⟨hne, hrest⟩ := not_or.mp (mt List.mem_cons.mpr h)
    rw [List.cons_append, spans, if_neg (Ne.symm hne), ih hrest]

theorem spans_inside {first last : Char} {begun text rest : List Char} (h : last ∉ text) :
    spans first last (some begun) (text ++ last :: rest) =
      (begun ++ text ++ [last]) :: spans first last none rest := by
  induction text generalizing begun with
  | nil => simp [spans]
  | cons c text ih =>
    obtain ⟨hne, hrest⟩ := not_or.mp (mt List.mem_cons.mpr h)
    rw [List.cons_append, spans, if_neg (Ne.symm hne), ih hrest]
    simp

theorem spans_span {first last : Char} {inner rest : List Char} (h : last ∉ inner) :
    spans first last none (first :: inner ++ last :: rest) =
      (first :: inner ++ [last]) :: spans first last none rest := by
  rw [List.cons_append, spans, if_pos rfl, spans_inside h]
  rfl

theorem not_mem_toString {c : Char} (hc : c.isDigit = false) (n : Nat) :
    c ∉ (toString n).toList := by
  intro hmem
  rw [Nat.toString_eq_repr, Nat.toList_repr] at hmem
  have hdigit := Nat.isDigit_of_mem_toDigits (by decide) (by decide) hmem
  rw [hc] at hdigit
  cases hdigit

namespace Color

/-- A foreground is a single sequence. -/
theorem exists_foreground (c : Color) : ∃ inner : List Char, 'm' ∉ inner ∧
    c.foreground.toList = '\x1b' :: inner ++ ['m'] := by
  refine ⟨"[38;2;".toList ++ (toString c.r.toNat).toList ++ ";".toList ++
    (toString c.g.toNat).toList ++ ";".toList ++ (toString c.b.toNat).toList, ?_, ?_⟩
  · have hparts (n : Nat) : 'm' ∉ (toString n).toList := not_mem_toString (by decide) n
    have hall := And.intro (hparts c.r.toNat) (And.intro (hparts c.g.toNat) (hparts c.b.toNat))
    simpa using hall
  · simp [foreground]

theorem deleteSpans_foreground (c : Color) (rest : List Char) :
    deleteSpans '\x1b' 'm' false (c.foreground.toList ++ rest) =
      deleteSpans '\x1b' 'm' false rest := by
  obtain ⟨inner, hinner, htext⟩ := c.exists_foreground
  rw [htext, List.append_assoc, List.singleton_append, deleteSpans_span hinner]

theorem spans_foreground (c : Color) (rest : List Char) :
    spans '\x1b' 'm' none (c.foreground.toList ++ rest) =
      c.foreground.toList :: spans '\x1b' 'm' none rest := by
  obtain ⟨inner, hinner, htext⟩ := c.exists_foreground
  rw [htext, List.append_assoc, List.singleton_append, spans_span hinner]

theorem spans_reset (rest : List Char) :
    spans '\x1b' 'm' none (reset.toList ++ rest) =
      reset.toList :: spans '\x1b' 'm' none rest :=
  @spans_span '\x1b' 'm' ['[', '0'] rest (by decide)

end Color

/-! ### Fragments -/

namespace Fragment

theorem deleteSpans_write (palette? : Option Palette) {f : Fragment}
    (h : '\x1b' ∉ f.text.toList) (rest : List Char) :
    deleteSpans '\x1b' 'm' false ((f.write palette?).toList ++ rest) =
      f.text.toList ++ deleteSpans '\x1b' 'm' false rest := by
  have hreset : deleteSpans '\x1b' 'm' false (Color.reset.toList ++ rest) =
      deleteSpans '\x1b' 'm' false rest :=
    @deleteSpans_span '\x1b' 'm' ['[', '0'] rest (by decide)
  rcases f with text | ⟨style, text⟩
  · exact deleteSpans_append h
  · cases palette? with
    | none => exact deleteSpans_append h
    | some palette =>
      have htext : '\x1b' ∉ text.toList := h
      rw [write, String.toList_append, String.toList_append, List.append_assoc, List.append_assoc,
        Color.deleteSpans_foreground, deleteSpans_append htext, hreset, Fragment.text]

theorem deleteSpans_writes (palette? : Option Palette) {fragments : List Fragment}
    (h : ∀ f ∈ fragments, '\x1b' ∉ f.text.toList) :
    deleteSpans '\x1b' 'm' false (fragments.flatMap fun f => (f.write palette?).toList) =
      chars fragments := by
  induction fragments with
  | nil => rfl
  | cons f fragments ih =>
    obtain ⟨hfirst, hothers⟩ := List.forall_mem_cons.mp h
    rw [List.flatMap_cons, deleteSpans_write palette? hfirst, ih hothers, chars_cons]

/-- The sequences of a fragment: its colour is switched on and off again. -/
def sequences (palette : Palette) : Fragment → List (List Char)
  | plain _ => []
  | styled style _ => [(palette.color style).foreground.toList, Color.reset.toList]

theorem spans_write (palette : Palette) {f : Fragment} (h : '\x1b' ∉ f.text.toList)
    (rest : List Char) :
    spans '\x1b' 'm' none ((f.write (some palette)).toList ++ rest) =
      f.sequences palette ++ spans '\x1b' 'm' none rest := by
  rcases f with text | ⟨style, text⟩
  · exact spans_append h
  · have htext : '\x1b' ∉ text.toList := h
    rw [write, String.toList_append, String.toList_append, List.append_assoc, List.append_assoc,
      Color.spans_foreground, spans_append htext, Color.spans_reset]
    rfl

theorem spans_writes (palette : Palette) {fragments : List Fragment}
    (h : ∀ f ∈ fragments, '\x1b' ∉ f.text.toList) :
    spans '\x1b' 'm' none (fragments.flatMap fun f => (f.write (some palette)).toList) =
      fragments.flatMap (sequences palette) := by
  induction fragments with
  | nil => rfl
  | cons f fragments ih =>
    obtain ⟨hfirst, hothers⟩ := List.forall_mem_cons.mp h
    rw [List.flatMap_cons, spans_write palette hfirst, ih hothers, List.flatMap_cons]

/-- Sequences switch colours of the palette on and off in turns. -/
theorem exists_styles (palette : Palette) (fragments : List Fragment) :
    ∃ styles : List Style, fragments.flatMap (sequences palette) =
      styles.flatMap fun style => [(palette.color style).foreground.toList, Color.reset.toList] := by
  induction fragments with
  | nil => exact ⟨[], rfl⟩
  | cons f fragments ih =>
    obtain ⟨styles, hstyles⟩ := ih
    cases f with
    | plain text => exact ⟨styles, hstyles⟩
    | styled style text =>
      refine ⟨style :: styles, ?_⟩
      rw [List.flatMap_cons, List.flatMap_cons, hstyles]
      rfl

end Fragment

/-! ### Lines -/

namespace Terminal

theorem mem_bodyLine {tabDue : Bool} {tokens : List Token} {f : Fragment}
    (h : f ∈ bodyLine tabDue tokens) :
    f = .plain "\t" ∨ ∃ token ∈ tokens, f = bodyFragment token := by
  induction tokens generalizing tabDue with
  | nil => cases h
  | cons token tokens ih =>
    rw [bodyLine, List.mem_append, List.mem_cons] at h
    rcases h with htab | rfl | hrest
    · cases tabDue with
      | false => cases htab
      | true => exact Or.inl (List.mem_singleton.mp htab)
    · exact Or.inr ⟨token, List.mem_cons_self, rfl⟩
    · rcases ih hrest with htab | ⟨other, hother, hf⟩
      · exact Or.inl htab
      · exact Or.inr ⟨other, List.mem_cons_of_mem _ hother, hf⟩

theorem escape_not_mem_cell (columns : Columns) (column : Column) (value : UInt16) :
    ∀ f ∈ cell columns column (.word value), '\x1b' ∉ f.text.toList := by
  have hclean : Clean (Token.word value).text := clean_numeral 4 value.toNat
  have hdigits := hclean.not_mem (by decide : '\x1b' ∈ layoutCharacters)
  unfold cell
  split
  · simpa [hexFragment, Fragment.text] using hdigits
  · simp

theorem escape_not_mem_line (columns : Columns) {i : Instruction} (h : i.WellFormed) :
    ∀ f ∈ line columns i, '\x1b' ∉ f.text.toList := by
  have hbody : ∀ f ∈ bodyLine false i.body, '\x1b' ∉ f.text.toList := by
    intro f hf
    rcases mem_bodyLine hf with rfl | ⟨token, htoken, rfl⟩
    · decide
    · exact (clean_bodyFragment (h.clean_body token htoken)).not_mem (by decide)
  simp only [line, List.forall_mem_append]
  exact ⟨⟨⟨escape_not_mem_cell _ _ _, escape_not_mem_cell _ _ _⟩, hbody⟩,
    by simp [Fragment.text]⟩

/-- Without the sequences that switch colours, the lines of a listing are the same in all
    formats of a terminal. -/
theorem deleteSpans_lines (options : Options) {listing : Listing}
    (h : ∀ i ∈ listing, i.WellFormed) :
    deleteSpans '\x1b' 'm' false (String.join (listing.map (writer options).lineText)).toList =
      Fragment.chars (listing.flatMap (line options.columns)) := by
  rw [toList_lines]
  apply Fragment.deleteSpans_writes
  intro f hf
  obtain ⟨i, hi, hmem⟩ := List.mem_flatMap.mp hf
  exact escape_not_mem_line options.columns (h i hi) f hmem

/-! ### Events -/

/-- The fragments that are written about events, one event after the other. -/
def trace (columns : Columns) (header : Bool) : State → List Event → List Fragment
  | _, [] => []
  | state, event :: events =>
      fragments columns header state event ++ trace columns header (next state event) events

/-- Colours have no part in which fragments are written. -/
theorem toList_write (options : Options) (state : State) (events : List Event) :
    ((writer options).write state events).text.toList =
      (trace options.columns options.header state events).flatMap
        fun f => (f.write (palette? options)).toList := by
  induction events generalizing state with
  | nil => rfl
  | cons event events ih =>
    have hnext := ih (next state event)
    rw [Writer.write_cons, String.toList_append, trace, List.flatMap_append, ← hnext]
    simp only [writer, String.toList_join, List.flatMap_map]

theorem escape_not_mem_caption (columns : Columns) : '\x1b' ∉ columns.caption.toList := by
  unfold Columns.caption
  split <;> split <;> decide

theorem escape_not_mem_bodyFragment {token : Token} (h : '\x1b' ∉ token.text.toList) :
    '\x1b' ∉ (bodyFragment token).text.toList := by
  cases token with
  | hex => simpa [bodyFragment, hexFragment, Fragment.text] using h
  | punctuation text =>
    by_cases hcomma : text = ","
    · subst hcomma
      decide
    · simpa [bodyFragment, Fragment.text, Token.text, hcomma] using h
  | keyword | typeName | var | varAddress | lineBreak | unknown => exact h

/-- An escape character can only come from the text of a token. -/
theorem escape_not_mem_fragments (columns : Columns) (header : Bool) (state : State) {event : Event}
    (h : ∀ token, event = .token token → '\x1b' ∉ token.text.toList) :
    ∀ f ∈ fragments columns header state event, '\x1b' ∉ f.text.toList := by
  cases event with
  | start =>
    have hcaption := escape_not_mem_caption columns
    cases header <;> simp [fragments, Fragment.text, hcaption]
  | finish => cases state <;> simp [fragments]
  | oversize length =>
    have hlength : '\x1b' ∉ (toString length).toList := not_mem_toString (by decide) length
    cases state <;> simpa [fragments, Fragment.text] using hlength
  | token token =>
    have htoken := h token rfl
    cases state with
    | column which =>
      rw [fragments]
      split
      · simpa [hexFragment, Fragment.text] using htoken
      · simp
    | body tabDue =>
      by_cases hbreak : token = .lineBreak
      · subst hbreak
        simp [fragments, Fragment.text]
      · have hbody := escape_not_mem_bodyFragment htoken
        rw [fragments_body hbreak]
        cases tabDue <;> simpa [tab, Fragment.text] using hbody

theorem escape_not_mem_trace (columns : Columns) (header : Bool) (state : State)
    {events : List Event} (h : ∀ token, Event.token token ∈ events → '\x1b' ∉ token.text.toList) :
    ∀ f ∈ trace columns header state events, '\x1b' ∉ f.text.toList := by
  induction events generalizing state with
  | nil => simp [trace]
  | cons event events ih =>
    rw [trace, List.forall_mem_append]
    refine ⟨?_, ih _ fun token htoken => h token (List.mem_cons_of_mem _ htoken)⟩
    apply escape_not_mem_fragments
    rintro token rfl
    exact h token List.mem_cons_self

/-- The text without its sequences. -/
def uncoloured (text : String) : String :=
  String.ofList (deleteSpans '\x1b' 'm' false text.toList)

/-- The sequences of a text, in order. -/
def sequences (text : String) : List String :=
  (spans '\x1b' 'm' none text.toList).map String.ofList

theorem uncoloured_write (options : Options) (state : State) {events : List Event}
    (h : ∀ token, Event.token token ∈ events → '\x1b' ∉ token.text.toList) :
    uncoloured ((writer { options with format := .ansi }).write state events).text =
      ((writer { options with format := .text }).write state events).text := by
  rw [← String.toList_inj, uncoloured, String.toList_ofList, toList_write, toList_write,
    Fragment.deleteSpans_writes _ (escape_not_mem_trace _ _ state h)]
  simp only [palette?, if_neg (by decide : ¬ Format.text = Format.ansi), Fragment.write_none]
  rfl

theorem exists_sequences_write (options : Options) (state : State) {events : List Event}
    (h : ∀ token, Event.token token ∈ events → '\x1b' ∉ token.text.toList) :
    ∃ styles : List Style,
      sequences ((writer { options with format := .ansi }).write state events).text =
        styles.flatMap fun style => [(options.palette.color style).foreground, Color.reset] := by
  obtain ⟨styles, hstyles⟩ := Fragment.exists_styles options.palette
    (trace options.columns options.header state events)
  refine ⟨styles, ?_⟩
  rw [sequences, toList_write]
  simp only [palette?, if_true]
  rw [Fragment.spans_writes _ (escape_not_mem_trace _ _ state h), hstyles, List.map_flatMap]
  simp

end Terminal

/-! ### Images -/

theorem Listing.escape_not_mem_tokens {listing : Listing} (h : ∀ i ∈ listing, i.WellFormed) :
    ∀ token ∈ listing.tokens, '\x1b' ∉ token.text.toList := by
  intro token htoken
  have hwords (word : UInt16) : Clean (Token.word word).text := clean_numeral 4 word.toNat
  obtain ⟨i, hi, hline⟩ := List.mem_flatMap.mp htoken
  simp only [Instruction.line, List.mem_append, List.mem_cons, List.not_mem_nil, or_false] at hline
  rcases hline with ((rfl | rfl) | hbody) | rfl
  · exact (hwords i.address).not_mem (by decide)
  · exact (hwords i.opcode).not_mem (by decide)
  · exact ((h i hi).clean_body token hbody).not_mem (by decide)
  · decide

theorem Image.escape_not_mem_calls (image : Image) :
    ∀ token, Event.token token ∈ image.calls → '\x1b' ∉ token.text.toList := by
  intro token htoken
  rw [Image.calls_eq] at htoken
  cases hvalue : (disassemble image).value with
  | error e => cases e <;> simp [hvalue, Event.ofResult] at htoken
  | ok listing =>
    have hwell := wellFormed_of_disassemble hvalue
    have hmem : token ∈ listing.tokens := by
      simpa [hvalue, Event.ofResult, Listing.events] using htoken
    exact Listing.escape_not_mem_tokens hwell token hmem

/-- Colour adds nothing but sequences. Let two terminal writers, one with colours and one
    without, write about the same events in the same state, where no token has an escape
    character in its text. Without its sequences the coloured text is the plain one. Its
    sequences are a foreground of the palette and a reset in turns, the first of them a
    foreground and the last one a reset, and as this holds for events of any number, no
    colour is left on behind any of them. In particular the two outputs about an image
    are the same without the sequences. -/
theorem colours_only_add_sequences (options : Options) :
    (∀ (state : Terminal.State) (events : List Event),
      (∀ token, Event.token token ∈ events → '\x1b' ∉ token.text.toList) →
      let coloured := (Terminal.writer { options with format := .ansi }).write state events
      let plain := (Terminal.writer { options with format := .text }).write state events
      Terminal.uncoloured coloured.text = plain.text ∧
      ∃ styles : List Style, Terminal.sequences coloured.text =
        styles.flatMap fun style => [(options.palette.color style).foreground, Color.reset]) ∧
    ∀ image, Terminal.uncoloured (render { options with format := .ansi } image).value.output =
      (render { options with format := .text } image).value.output := by
  refine ⟨?_, ?_⟩
  · intro state events hevents
    exact ⟨Terminal.uncoloured_write options state hevents,
      Terminal.exists_sequences_write options state hevents⟩
  · intro image
    have hcalls := Terminal.uncoloured_write options (.column .address) image.escape_not_mem_calls
    rw [Image.calls_eq] at hcalls
    exact hcalls

/-- A line break in a column, a keyword with a tab behind it, an unknown type and the
    message about an image that is too long. -/
theorem colours_only_add_sequences_events :
    let events : List Event := [.start, .token .lineBreak, .token (.word 0x1234),
      .token (.keyword "vnew"), .token (.unknown (.dataType 9)), .oversize 70000]
    (∀ token, Event.token token ∈ events → '\x1b' ∉ token.text.toList) ∧
      Terminal.uncoloured ((Terminal.writer { format := .ansi }).write (.column .address)
        events).text =
          ((Terminal.writer { format := .text }).write (.column .address) events).text := by
  intro events
  have hevents : ∀ token, Event.token token ∈ events → '\x1b' ∉ token.text.toList := by
    intro token htoken
    simp only [events, List.mem_cons, Event.token.injEq, reduceCtorEq, List.not_mem_nil,
      false_or, or_false] at htoken
    rcases htoken with rfl | rfl | rfl | rfl <;> decide +kernel
  obtain ⟨hwriters, -⟩ := colours_only_add_sequences {}
  exact ⟨hevents, (hwriters (.column .address) events hevents).1⟩

end Disassembly
