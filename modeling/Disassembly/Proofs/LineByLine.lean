import Disassembly.Proofs.WriterHistory

/-!
# Listings are written line by line

A writer finds the columns of a line by counting tokens: the first two tokens behind a
line break are put in columns and all others behind them. `Writer.CountsTokens` states
what a writer does with a single token. A whole line then leads from the beginning of a
line to the beginning of the next, whatever its operands are, and only its address and
its opcode are put in columns.

So what is written about a listing is the text of its start, the text of every line on
its own, and the text of its finish (`listing_written_line_by_line`).
-/

namespace Disassembly

variable {σ : Type}

/-! ### Where events are met -/

/-- The states in which events are met, each with its event. -/
def visits (next : σ → Event → σ) : σ → List Event → List (σ × Event)
  | _, [] => []
  | state, event :: events => (state, event) :: visits next (next state event) events

theorem visits_append (next : σ → Event → σ) (state : σ) (events others : List Event) :
    visits next state (events ++ others) =
      visits next state events ++ visits next (events.foldl next state) others := by
  induction events generalizing state with
  | nil => rfl
  | cons event events ih => simp [visits, ih]

theorem Writer.state_write (w : Writer σ) (state : σ) (events : List Event) :
    (w.write state events).state = events.foldl w.next state := by
  induction events generalizing state with
  | nil => rfl
  | cons event events ih => simp [ih]

/-- A token that is met in the state of a column, with that column. -/
def cell? (place : σ → Option Column) : σ × Event → Option (Column × Token)
  | (state, .token token) => (place state).map (·, token)
  | (_, .start) | (_, .finish) | (_, .oversize _) => none

/-- All tokens that are put in columns, in order. -/
def cells (place : σ → Option Column) (next : σ → Event → σ) (state : σ) (events : List Event) :
    List (Column × Token) :=
  (visits next state events).filterMap (cell? place)

theorem cells_append (place : σ → Option Column) (next : σ → Event → σ) (state : σ)
    (events others : List Event) :
    cells place next state (events ++ others) =
      cells place next state events ++ cells place next (events.foldl next state) others := by
  simp [cells, visits_append]

/-! ### Lines -/

/-- Every group of tokens but the first has a comma in front of it. -/
theorem intercalate_comma_cons (group : List Token) (groups : List (List Token)) :
    List.intercalate [Token.comma] (group :: groups) =
      group ++ groups.flatMap (Token.comma :: ·) := by
  induction groups generalizing group with
  | nil => simp
  | cons other groups ih =>
    rw [List.intercalate_cons_cons, ih, List.flatMap_cons]
    simp

theorem mem_intercalate_comma {token : Token} {groups : List (List Token)}
    (h : token ∈ List.intercalate [Token.comma] groups) :
    token = .comma ∨ ∃ group ∈ groups, token ∈ group := by
  cases groups with
  | nil => simp at h
  | cons group groups =>
    rw [intercalate_comma_cons, List.mem_append, List.mem_flatMap] at h
    rcases h with h | ⟨other, hother, h⟩
    · exact Or.inr ⟨group, List.mem_cons_self, h⟩
    · rcases List.mem_cons.mp h with hcomma | h
      · exact Or.inl hcomma
      · exact Or.inr ⟨other, List.mem_cons_of_mem _ hother, h⟩

theorem Operand.lineBreak_not_mem_tokens (operand : Operand) : Token.lineBreak ∉ operand.tokens := by
  cases operand with
  | literal | var | address | popped | location | deref => simp [tokens, Token.word]
  | offset expr =>
    obtain ⟨lhs, operator, rhs⟩ := expr
    cases lhs <;> cases rhs <;> simp [tokens, OffsetExpr.tokens, OffsetSide.token, Token.word]
  | dataType type => cases type <;> simp [tokens, DataType.token, DataType.name?]

/-- The only line break of a line is at its end. -/
theorem Instruction.lineBreak_not_mem_body (i : Instruction) : Token.lineBreak ∉ i.body := by
  rw [body, List.mem_cons]
  rintro (hhead | hmem)
  · unfold head at hhead
    split at hhead <;> cases hhead
  · rcases mem_intercalate_comma hmem with hcomma | ⟨group, hgroup, htoken⟩
    · cases hcomma
    · obtain ⟨operand, -, rfl⟩ := List.mem_map.mp hgroup
      exact operand.lineBreak_not_mem_tokens htoken

theorem Instruction.map_line (i : Instruction) :
    i.line.map Event.token =
      .token (.word i.address) :: .token (.word i.opcode) ::
        (i.body ++ [Token.lineBreak]).map .token := by
  simp [Instruction.line]

namespace Writer

/-- What a fresh writer writes for a line that comes right after the start. -/
def lineText (w : Writer σ) (i : Instruction) : String :=
  (w.write (w.next w.fresh .start) (i.line.map .token)).text

/-- What the writer does with single tokens. From the beginning of a line, the state
    `home`, two tokens lead through the columns, and the others stay behind them up to a
    line break, which leads to the beginning of the next line. -/
structure CountsTokens (w : Writer σ) (place : σ → Option Column) (home : σ) : Prop where
  next_start : ∀ state, w.next state .start = home
  place_home : place home = some .address
  next_address : ∀ state token, place state = some .address →
    place (w.next state (.token token)) = some .opcode
  next_opcode : ∀ state token, place state = some .opcode →
    place (w.next state (.token token)) = none
  next_body : ∀ state token, place state = none → token ≠ .lineBreak →
    place (w.next state (.token token)) = none
  next_lineBreak : ∀ state, place state = none → w.next state (.token .lineBreak) = home
  text_finish : ∀ state, w.text state .finish = w.text w.fresh .finish

namespace CountsTokens

variable {w : Writer σ} {place : σ → Option Column} {home : σ}

theorem run_body (h : w.CountsTokens place home) {state : σ} (hstate : place state = none)
    {tokens : List Token} (htokens : Token.lineBreak ∉ tokens) :
    place ((tokens.map Event.token).foldl w.next state) = none ∧
      cells place w.next state (tokens.map .token) = [] := by
  induction tokens generalizing state with
  | nil => exact ⟨hstate, rfl⟩
  | cons token tokens ih =>
    obtain ⟨hne, hrest⟩ := not_or.mp (mt List.mem_cons.mpr htokens)
    obtain ⟨hplace, hcells⟩ := ih (h.next_body state token hstate (Ne.symm hne)) hrest
    refine ⟨hplace, ?_⟩
    simpa [cells, visits, cell?, hstate] using hcells

/-- A line leads from the beginning of a line to the beginning of the next, and its
    address and opcode alone are put in columns. -/
theorem run_line (h : w.CountsTokens place home) (i : Instruction) :
    (i.line.map Event.token).foldl w.next home = home ∧
      cells place w.next home (i.line.map .token) =
        [(.address, .word i.address), (.opcode, .word i.opcode)] := by
  have haddress := h.next_address home (.word i.address) h.place_home
  have hopcode := h.next_opcode _ (.word i.opcode) haddress
  obtain ⟨hplace, hcells⟩ := h.run_body hopcode i.lineBreak_not_mem_body
  have hline : i.line.map Event.token =
      [.token (.word i.address), .token (.word i.opcode)] ++
        (i.body.map .token ++ [.token .lineBreak]) := by
    simp [i.map_line]
  rw [hline, cells_append, cells_append, List.foldl_append, List.foldl_append]
  constructor
  · exact h.next_lineBreak _ hplace
  · simp only [List.foldl_cons, List.foldl_nil, hcells, List.nil_append]
    simp [cells, visits, cell?, h.place_home, haddress, hplace]

/-- Line after line, a listing ends at the beginning of a line. -/
theorem run_tokens (h : w.CountsTokens place home) (listing : Listing) :
    (listing.tokens.map Event.token).foldl w.next home = home ∧
      cells place w.next home (listing.tokens.map .token) =
        listing.flatMap fun i => [(.address, .word i.address), (.opcode, .word i.opcode)] := by
  induction listing with
  | nil => exact ⟨rfl, rfl⟩
  | cons i listing ih =>
    obtain ⟨hline, hcells⟩ := h.run_line i
    have htokens : Listing.tokens (i :: listing) = i.line ++ Listing.tokens listing :=
      List.flatMap_cons
    rw [htokens, List.map_append, List.foldl_append, cells_append, hline, hcells, ih.2]
    exact ⟨ih.1, rfl⟩

theorem text_tokens (h : w.CountsTokens place home) (listing : Listing) :
    (w.write home (listing.tokens.map .token)).text = String.join (listing.map w.lineText) := by
  induction listing with
  | nil => rfl
  | cons i listing ih =>
    have htokens : Listing.tokens (i :: listing) = i.line ++ Listing.tokens listing :=
      List.flatMap_cons
    rw [htokens, List.map_append, write_append, state_write, (h.run_line i).1, ih, List.map_cons,
      String.join_cons, lineText, h.next_start]

theorem text_events (h : w.CountsTokens place home) (state : σ) (listing : Listing) :
    (w.write state listing.events).text =
      w.text state .start ++ String.join (listing.map w.lineText) ++ w.text w.fresh .finish := by
  rw [Listing.events, write_cons, h.next_start, write_append, h.text_tokens]
  simp only [write_cons, write_nil, h.text_finish, String.append_empty, String.append_assoc]

end CountsTokens

/-- The text about a listing is made of texts about single instructions. After each of
    them the writer is at the beginning of a line, and only addresses and opcodes are put
    in columns. -/
structure WritesLineByLine (w : Writer σ) (place : σ → Option Column) (home : σ)
    (listing : Listing) : Prop where
  text : (w.write w.fresh listing.events).text =
    w.text w.fresh .start ++ String.join (listing.map w.lineText) ++ w.text w.fresh .finish
  state : ∀ count, (w.write w.fresh
    (.start :: (Listing.tokens (listing.take count)).map .token)).state = home
  columns : cells place w.next w.fresh listing.events =
    listing.flatMap fun i => [(.address, .word i.address), (.opcode, .word i.opcode)]

theorem CountsTokens.writesLineByLine {w : Writer σ} {place : σ → Option Column} {home : σ}
    (h : w.CountsTokens place home) (listing : Listing) :
    w.WritesLineByLine place home listing where
  text := h.text_events w.fresh listing
  state count := by
    rw [state_write, List.foldl_cons, h.next_start]
    exact (h.run_tokens (listing.take count)).1
  columns := by
    have hstart : cells place w.next w.fresh listing.events =
        cells place w.next home (listing.tokens.map .token ++ [.finish]) := by
      rw [cells, Listing.events, visits, List.filterMap_cons_none rfl, h.next_start, cells]
    rw [hstart, cells_append, (h.run_tokens listing).2]
    simp [cells, visits, cell?]

end Writer

/-! ### The two writers -/

def Page.State.column? : Page.State → Option Column
  | .column which => some which
  | .body => none

def Terminal.State.column? : Terminal.State → Option Column
  | .column which => some which
  | .body _ => none

theorem Page.countsTokens (options : Options) :
    (Page.writer options).CountsTokens Page.State.column? (.column .address) where
  next_start _ := rfl
  place_home := rfl
  next_address state token hstate := by
    rcases state with (_ | _) | _ <;> cases hstate
    rfl
  next_opcode state token hstate := by
    rcases state with (_ | _) | _ <;> cases hstate
    rfl
  next_body state token hstate htoken := by
    rcases state with (_ | _) | _ <;> cases hstate
    cases token with
    | lineBreak => exact absurd rfl htoken
    | keyword | hex | typeName | var | varAddress | punctuation | unknown => rfl
  next_lineBreak state hstate := by
    rcases state with (_ | _) | _ <;> cases hstate
    rfl
  text_finish state := by rcases state with (_ | _) | _ <;> rfl

theorem Terminal.countsTokens (options : Options) :
    (Terminal.writer options).CountsTokens Terminal.State.column? (.column .address) where
  next_start _ := rfl
  place_home := rfl
  next_address state token hstate := by
    rcases state with (_ | _) | _ <;> cases hstate
    rfl
  next_opcode state token hstate := by
    rcases state with (_ | _) | _ <;> cases hstate
    rfl
  next_body state token hstate htoken := by
    rcases state with (_ | _) | _ <;> cases hstate
    cases token with
    | lineBreak => exact absurd rfl htoken
    | keyword | hex | typeName | var | varAddress | punctuation | unknown => rfl
  next_lineBreak state hstate := by
    rcases state with (_ | _) | _ <;> cases hstate
    rfl
  text_finish state := by rcases state with (_ | _) | _ <;> rfl

/-- With all options both writers write a listing line by line. Between the text of the
    start and that of the finish stands one text for each instruction, the one that a
    fresh writer would write for it alone. After each instruction the writer is at the
    beginning of a line, where no tab is due, and the tokens that are put in columns are
    the address and the opcode of each line and no others. -/
theorem listing_written_line_by_line (options : Options) (listing : Listing) :
    (Page.writer options).WritesLineByLine Page.State.column? (.column .address) listing ∧
    (Terminal.writer options).WritesLineByLine Terminal.State.column? (.column .address) listing :=
  ⟨(Page.countsTokens options).writesLineByLine listing,
    (Terminal.countsTokens options).writesLineByLine listing⟩

end Disassembly
