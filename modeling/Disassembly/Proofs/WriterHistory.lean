import Disassembly.Proofs.PresentationProtocol

/-!
# Writers in use

A writer that has been used for something else is in some state: in the middle of a
line, with a tab due, or wherever its requests have left it. Its start puts it back at
the beginning of a line, and the message about an image that is too long is the same in
all states (`Writer.Restarts`).

It follows that the state never matters when an image is presented. The writer adds
what a fresh writer would have written about the image, and images that are presented
one after the other add up to their separate renderings
(`used_writers_like_fresh`).
-/

namespace Disassembly

variable {σ : Type}

/-! ### Writing in pieces -/

namespace Writer

theorem foldl_append_eq (w : Writer σ) (done : Written σ) (events : List Event) :
    events.foldl w.append done =
      ⟨done.text ++ (w.write done.state events).text, (w.write done.state events).state⟩ := by
  induction events generalizing done with
  | nil => simp [write]
  | cons event events ih =>
    have hfirst := ih (w.append done event)
    have hfresh := ih (w.append ⟨"", done.state⟩ event)
    simp only [write, List.foldl_cons, hfirst, hfresh]
    simp [append, String.append_assoc]

@[simp] theorem write_nil (w : Writer σ) (state : σ) : w.write state [] = ⟨"", state⟩ := rfl

@[simp] theorem write_cons (w : Writer σ) (state : σ) (event : Event) (events : List Event) :
    w.write state (event :: events) =
      ⟨w.text state event ++ (w.write (w.next state event) events).text,
        (w.write (w.next state event) events).state⟩ := by
  have h := w.foldl_append_eq (w.append ⟨"", state⟩ event) events
  simp only [append, String.empty_append] at h
  exact h

theorem write_append (w : Writer σ) (state : σ) (events others : List Event) :
    w.write state (events ++ others) =
      ⟨(w.write state events).text ++ (w.write (w.write state events).state others).text,
        (w.write (w.write state events).state others).state⟩ := by
  rw [write, List.foldl_append]
  exact w.foldl_append_eq (w.write state events) others

end Writer

/-! ### Requests -/

/-- What a writer can be asked for: a single event, or all there is to write about an
    image. -/
inductive Request where
  | event (event : Event)
  | image (image : Image)
deriving DecidableEq, Repr

namespace Writer

/-- Do what is asked, behind all that has been written. Only an image can fail. -/
def serve (w : Writer σ) (done : Written σ) : Request → Written σ × Option DecodeError
  | .event event => (w.append done event, none)
  | .image image => (image.calls.foldl w.append done, failure? (disassemble image).value)

/-- A writer that was fresh and has served these requests. -/
def after (w : Writer σ) (requests : List Request) : Written σ :=
  requests.foldl (fun done request => (w.serve done request).1) ⟨"", w.fresh⟩

/-- Whatever it was asked for before, the writer adds to its text what it writes about
    an image when it is fresh, and reports the same. -/
structure ForgetsHistory (w : Writer σ) : Prop where
  text_serve : ∀ (history : List Request) (image : Image),
    (w.serve (w.after history) (.image image)).1.text =
      (w.after history).text ++ (w.render image).value.output
  failure_serve : ∀ (history : List Request) (image : Image),
    (w.serve (w.after history) (.image image)).2 = (w.render image).value.failure
  present : ∀ (history : List Request) (image : Image),
    (w.present (w.after history).state image).value.1.text = (w.render image).value.output ∧
    (w.present (w.after history).state image).value.2 = (w.render image).value.failure
  images : ∀ (history : List Request) (images : List Image),
    (w.after (history ++ images.map .image)).text =
      (w.after history).text ++ String.join (images.map fun image => (w.render image).value.output)

/-- Neither the text nor the effect of a start depends on the state, and nor does the
    message about an image that is too long. -/
structure Restarts (w : Writer σ) : Prop where
  text_start : ∀ state, w.text state .start = w.text w.fresh .start
  next_start : ∀ state, w.next state .start = w.next w.fresh .start
  text_oversize : ∀ state length, w.text state (.oversize length) = w.text w.fresh (.oversize length)

namespace Restarts

variable {w : Writer σ}

theorem text_write_calls (h : w.Restarts) (state : σ) (image : Image) :
    (w.write state image.calls).text = (w.write w.fresh image.calls).text := by
  rw [Image.calls_eq]
  rcases (disassemble image).value with (length | ⟨offset, length⟩) | listing
  · simp only [Event.ofResult, write_cons, write_nil, h.text_oversize state]
  · rfl
  · simp only [Event.ofResult, Listing.events, write_cons, h.text_start state, h.next_start state]

theorem text_serve (h : w.Restarts) (done : Written σ) (image : Image) :
    (w.serve done (.image image)).1.text = done.text ++ (w.render image).value.output := by
  simp only [serve, foldl_append_eq, h.text_write_calls done.state]
  rw [Image.calls_eq]
  rfl

theorem text_images (h : w.Restarts) (done : Written σ) (images : List Image) :
    ((images.map Request.image).foldl (fun done request => (w.serve done request).1) done).text =
      done.text ++ String.join (images.map fun image => (w.render image).value.output) := by
  induction images generalizing done with
  | nil => simp
  | cons image images ih =>
    rw [List.map_cons, List.foldl_cons, ih, h.text_serve, List.map_cons, String.join_cons,
      String.append_assoc]

theorem forgetsHistory (h : w.Restarts) : w.ForgetsHistory where
  text_serve history image := h.text_serve (w.after history) image
  failure_serve _ _ := rfl
  present history image := by
    rw [present_value]
    refine ⟨?_, rfl⟩
    rw [h.text_write_calls, Image.calls_eq]
    rfl
  images history images := by
    rw [after, List.foldl_append]
    exact h.text_images (w.after history) images

end Restarts

end Writer

/-! ### The two writers -/

theorem Page.restarts (options : Options) : (Page.writer options).Restarts where
  text_start _ := rfl
  next_start _ := rfl
  text_oversize state length := by cases state <;> rfl

theorem Terminal.restarts (options : Options) : (Terminal.writer options).Restarts where
  text_start _ := rfl
  next_start _ := rfl
  text_oversize state length := by cases state <;> rfl

/-- With all options, a page writer and a terminal writer that have served any requests
    in any order go on like fresh ones. What they write about an image, behind the text
    that is already there, is its rendering by a fresh writer, with the same report;
    and images presented one after the other add up to their separate renderings. -/
theorem used_writers_like_fresh (options : Options) :
    (Page.writer options).ForgetsHistory ∧ (Terminal.writer options).ForgetsHistory :=
  ⟨(Page.restarts options).forgetsHistory, (Terminal.restarts options).forgetsHistory⟩

end Disassembly
