import Disassembly.Presentation.Page
import Disassembly.Presentation.Terminal

/-!
# Renderings

An image written in the format that the options choose.
-/

namespace Disassembly

/-- Disassemble an image and write it. An image that is too long has an output
    as well as a failure. -/
def render (options : Options) (image : Image) : Noted Rendering :=
  let rendered :=
    match options.format with
    | .html => (Page.writer options).render image
    | .text | .ansi => (Terminal.writer options).render image
  ⟨rendered.value, .rendering image.length options.format :: rendered.notices⟩

end Disassembly
