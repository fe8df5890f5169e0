import Disassembly.Image.Basic

/-!
# Cursors

A cursor stands between the bytes of an image that have been read and those
that have not. It keeps the number of the former and the latter themselves, so
it is never past the end.
-/

namespace Disassembly

structure Cursor where
  /-- The number of bytes in front of the cursor. -/
  position : Nat
  /-- The bytes behind the cursor. -/
  rest : Image
deriving DecidableEq, Repr

namespace Cursor

/-- The cursor in front of the first byte. -/
def start (image : Image) : Cursor := ⟨0, image⟩

def length (c : Cursor) : Nat := c.position + c.rest.length

def hasMore (c : Cursor) : Bool := !c.rest.isEmpty

@[simp] theorem length_start (image : Image) : (start image).length = image.length := by
  simp [start, length]

end Cursor

end Disassembly
