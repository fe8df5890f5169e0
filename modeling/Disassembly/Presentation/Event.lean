import Disassembly.Listing.Basic

/-!
# Events

What there is to write about an image: its listing token by token between a
start and a finish, or the single message that the image is too long. About an
image that ends in the middle of an instruction nothing is written.
-/

namespace Disassembly

/-- Something to write. -/
inductive Event where
  | start
  | token (token : Token)
  | finish
  | oversize (length : Nat)
deriving DecidableEq, Repr

def Listing.events (listing : Listing) : List Event :=
  .start :: (listing.tokens.map .token ++ [.finish])

/-- What there is to write after disassembly. -/
def Event.ofResult : Except DecodeError Listing → List Event
  | .ok listing => listing.events
  | .error (.oversize length) => [.oversize length]
  | .error (.outOfData _ _) => []

end Disassembly
