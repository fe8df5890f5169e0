import Disassembly.Presentation.Event

/-!
# Writers

A writer turns events into text. It looks at one event at a time: what it writes
depends on the event and on its state, and so does the state it moves to. What
has been written is never changed.
-/

namespace Disassembly

/-- A way to write events. -/
structure Writer (σ : Type) where
  fresh : σ
  next : σ → Event → σ
  text : σ → Event → String

/-- What a writer has written and the state it is in. -/
structure Written (σ : Type) where
  text : String
  state : σ
deriving DecidableEq, Repr

/-- A text about an image, and the error if the image has no listing. -/
structure Rendering where
  output : String
  failure : Option DecodeError
deriving DecidableEq, Repr

namespace Writer

variable {σ : Type}

def append (w : Writer σ) (done : Written σ) (event : Event) : Written σ :=
  ⟨done.text ++ w.text done.state event, w.next done.state event⟩

/-- Write events in order, beginning in a given state. -/
def write (w : Writer σ) (state : σ) (events : List Event) : Written σ :=
  events.foldl w.append ⟨"", state⟩

/-- Disassemble an image and write about it, beginning in a given state. -/
def present (w : Writer σ) (state : σ) (image : Image) :
    Noted (Written σ × Option DecodeError) :=
  let listed := disassemble image
  ⟨(w.write state (Event.ofResult listed.value), failure? listed.value), listed.notices⟩

/-- Disassemble an image and write about nothing else. -/
def render (w : Writer σ) (image : Image) : Noted Rendering :=
  let presented := w.present w.fresh image
  ⟨⟨presented.value.1.text, presented.value.2⟩, presented.notices⟩

end Writer

end Disassembly
