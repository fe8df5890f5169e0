import Disassembly.Listing.Line
import Disassembly.Listing.Run

/-!
# Listings

The listing of an image is the sequence of its instructions. An image has one
only if instructions fill it from its first byte to its last.
-/

namespace Disassembly

/-- The instructions of an image, by address. -/
abbrev Listing := List Instruction

def Listing.tokens (listing : Listing) : List Token :=
  listing.flatMap Instruction.line

/-- The listing of an image, or why it has none. -/
def disassemble (image : Image) : Noted (Except DecodeError Listing) :=
  let collected := (Run.start image).collect #[] #[]
  match collected.value with
  | .ok listing =>
      ⟨.ok listing, collected.notices ++ [.listed listing.length image.length]⟩
  | .error e => ⟨.error e, collected.notices⟩

end Disassembly
