import Disassembly.Presentation.Rendering
import Disassembly.Proofs.Tiling

/-!
# What a writer is asked to write

A writer learns about an image only through the events it is handed. Which events
these are is seen with a writer that writes nothing and remembers them all
(`Writer.recorder`); every other writer gets the same ones, in the same order.

There are three cases, and none of them mixes with another: a whole listing between
its start and its finish, the single message that the image is too long, or nothing
at all (`presentation_protocol`). An image that ends too early is therefore never
written in part, in whatever format and with whatever options.
-/

namespace Disassembly

/-! ### Recording -/

/-- The writer that remembers what it was handed. -/
def Writer.recorder : Writer (List Event) where
  fresh := []
  next calls event := calls ++ [event]
  text _ _ := ""

theorem Writer.foldl_append_recorder (done : Written (List Event)) (events : List Event) :
    (events.foldl Writer.recorder.append done).state = done.state ++ events := by
  induction events generalizing done with
  | nil => simp
  | cons event events ih =>
    rw [List.foldl_cons, ih]
    simp [Writer.append, Writer.recorder]

/-- The events that a writer is handed about an image. -/
def Image.calls (image : Image) : List Event :=
  (Writer.recorder.present [] image).value.1.state

theorem Image.calls_eq (image : Image) :
    image.calls = Event.ofResult (disassemble image).value :=
  Writer.foldl_append_recorder ⟨"", []⟩ (Event.ofResult (disassemble image).value)

theorem Image.calls_of_error {image : Image} {e : DecodeError}
    (h : (disassemble image).value = .error e) :
    image.calls = [] ∨ ∃ length, image.calls = [.oversize length] := by
  rw [Image.calls_eq, h]
  cases e with
  | oversize length => exact Or.inr ⟨length, rfl⟩
  | outOfData offset length => exact Or.inl rfl

/-- No writer has a say in what it is handed or in what is reported. -/
theorem Writer.present_value {σ : Type} (w : Writer σ) (state : σ) (image : Image) :
    (w.present state image).value =
      (w.write state image.calls, failure? (disassemble image).value) := by
  rw [Image.calls_eq]
  rfl

theorem render_value (options : Options) (image : Image) :
    ∃ (σ : Type) (w : Writer σ), (render options image).value =
      ⟨(w.write w.fresh image.calls).text, failure? (disassemble image).value⟩ := by
  rw [Image.calls_eq]
  cases hformat : options.format with
  | html => exact ⟨_, Page.writer options, by simp only [render, hformat]; rfl⟩
  | text | ansi => exact ⟨_, Terminal.writer options, by simp only [render, hformat]; rfl⟩

/-- Every choice of options leads to the report of disassembly. -/
theorem render_failure (options : Options) (image : Image) :
    (render options image).value.failure = failure? (disassemble image).value := by
  obtain ⟨σ, w, hrender⟩ := render_value options image
  rw [hrender]

/-! ### The three cases -/

theorem failure?_eq_none_iff {α : Type} {result : Except DecodeError α} :
    failure? result = none ↔ ∃ a, result = .ok a := by
  cases result <;> simp [failure?]

theorem failure?_eq_some_iff {α : Type} {result : Except DecodeError α} {e : DecodeError} :
    failure? result = some e ↔ result = .error e := by
  cases result <;> simp [failure?]

theorem Event.ofResult_eq_listing_iff {result : Except DecodeError Listing} :
    (∃ tokens : List Token, ofResult result = .start :: (tokens.map .token ++ [.finish])) ↔
      ∃ listing, result = .ok listing := by
  rcases result with (_ | _) | listing
  · simp [ofResult]
  · simp [ofResult]
  · exact ⟨fun _ => ⟨listing, rfl⟩, fun _ => ⟨listing.tokens, rfl⟩⟩

theorem Event.ofResult_eq_oversize_iff {result : Except DecodeError Listing} {length : Nat} :
    ofResult result = [.oversize length] ↔ result = .error (.oversize length) := by
  rcases result with (_ | _) | listing <;> simp [ofResult, Listing.events]

theorem Event.ofResult_eq_nil_iff {result : Except DecodeError Listing} :
    ofResult result = [] ↔ ∃ offset length, result = .error (.outOfData offset length) := by
  rcases result with (_ | _) | listing <;> simp [ofResult, Listing.events]

/-- An image ends too early exactly when it is neither listed nor too long. -/
theorem disassemble_eq_outOfData_iff {image : Image} {offset length : Nat} :
    (disassemble image).value = .error (.outOfData offset length) ↔
      (offset = image.length ∧ length = image.length) ∧
      (¬ ∃ listing, (disassemble image).value = .ok listing) ∧
      image.length < Image.sizeLimit := by
  rcases disassemble_cases image with ⟨hover, hvalue⟩ | ⟨-, _, -, hvalue⟩ | ⟨hsize, -, hvalue⟩
  · simp [hvalue, Nat.not_lt.mpr hover]
  · simp [hvalue]
  · simp [hvalue, hsize, eq_comm]

/-- About an image that has a listing every writer is handed a start, the tokens of the
    listing in order and a finish, and no error is reported; about one of 65355 bytes or
    more a single message with its length, and the same is reported; about any other
    image nothing, and what is reported is that it ends too early. So all options lead
    to the same report, that of disassembly, and the output about an image that ends too
    early is empty. -/
theorem presentation_protocol (image : Image) :
    let listed := ∃ listing, (disassemble image).value = .ok listing
    let reported := failure? (disassemble image).value
    (∀ (σ : Type) (w : Writer σ) (state : σ),
      (w.present state image).value = (w.write state image.calls, reported)) ∧
    (∀ listing, (disassemble image).value = .ok listing →
      image.calls = .start :: (listing.tokens.map .token ++ [.finish])) ∧
    ((∃ tokens : List Token, image.calls = .start :: (tokens.map .token ++ [.finish])) ↔ listed) ∧
    (reported = none ↔ listed) ∧
    (image.calls = [.oversize image.length] ↔ 65355 ≤ image.length) ∧
    (reported = some (.oversize image.length) ↔ 65355 ≤ image.length) ∧
    (image.calls = [] ↔ ¬ listed ∧ image.length < 65355) ∧
    (reported = some (.outOfData image.length image.length) ↔
      ¬ listed ∧ image.length < 65355) ∧
    (∀ options, (render options image).value.failure = reported) ∧
    (∀ options offset length, reported = some (.outOfData offset length) →
      (render options image).value.output = "") := by
  intro listed reported
  have hover : (disassemble image).value = .error (.oversize image.length) ↔
      65355 ≤ image.length := disassemble_eq_oversize_iff.trans (and_iff_right rfl)
  have hshort : (disassemble image).value = .error (.outOfData image.length image.length) ↔
      ¬ listed ∧ image.length < 65355 :=
    disassemble_eq_outOfData_iff.trans (and_iff_right ⟨rfl, rfl⟩)
  refine ⟨?_, ?_, ?_, ?_, ?_, ?_, ?_, ?_, ?_, ?_⟩
  · intro σ w state
    exact w.present_value state image
  · intro listing hvalue
    rw [Image.calls_eq, hvalue]
    rfl
  · rw [Image.calls_eq]
    exact Event.ofResult_eq_listing_iff
  · exact failure?_eq_none_iff
  · rw [Image.calls_eq, Event.ofResult_eq_oversize_iff]
    exact hover
  · rw [failure?_eq_some_iff]
    exact hover
  · rw [Image.calls_eq, Event.ofResult_eq_nil_iff, ← hshort]
    constructor
    · rintro ⟨offset, length, hvalue⟩
      obtain ⟨⟨rfl, rfl⟩, -⟩ := disassemble_eq_outOfData_iff.mp hvalue
      exact hvalue
    · intro hvalue
      exact ⟨_, _, hvalue⟩
  · rw [failure?_eq_some_iff]
    exact hshort
  · intro options
    exact render_failure options image
  · intro options offset length hreported
    rw [failure?_eq_some_iff] at hreported
    obtain ⟨σ, w, hrender⟩ := render_value options image
    rw [hrender, Image.calls_eq, Event.ofResult_eq_nil_iff.mpr ⟨_, _, hreported⟩]
    rfl

/-- The second instruction is cut off, so nothing is written about the first. -/
theorem presentation_protocol_truncated :
    let image : Image := [0x01, 0x00, 0x00, 0x09, 0x01]
    failure? (disassemble image).value = some (.outOfData 5 5) ∧
      (¬ ∃ listing, (disassemble image).value = .ok listing) ∧ image.calls = [] ∧
      ∀ options, (render options image).value.output = "" ∧
        (render options image).value.failure = some (.outOfData 5 5) := by
  intro image
  have hreported : failure? (disassemble image).value = some (.outOfData 5 5) := by
    with_unfolding_all rfl
  obtain ⟨-, -, -, -, -, -, hcalls, hshort, hfailure, houtput⟩ := presentation_protocol image
  obtain ⟨hlisted, hsize⟩ := hshort.mp hreported
  refine ⟨hreported, hlisted, hcalls.mpr ⟨hlisted, hsize⟩, ?_⟩
  intro options
  exact ⟨houtput options 5 5 hreported, (hfailure options).trans hreported⟩

end Disassembly
