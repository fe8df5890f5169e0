import Disassembly.Image.Cursor
import Disassembly.Notice

/-!
# Decoders

A decoder reads a value at a cursor. It can fail, it leaves the cursor where it
stopped reading whether it failed or not, and it makes notices on the way. So a
word of which only the first byte is there fails with that byte consumed.

`Decoder.Advances` states how many bytes a successful decoder consumes at
least; the loop over a whole image ends because of it.
-/

namespace Disassembly

structure Step (α : Type) where
  /-- The value read, or why there is none. -/
  result : Except DecodeError α
  /-- Where reading stopped. -/
  cursor : Cursor
  /-- The notices made, in order. -/
  notices : List Notice

/-- A way to read a value at a cursor. -/
def Decoder (α : Type) : Type := Cursor → Step α

namespace Decoder

variable {α β : Type}

protected def pure (a : α) : Decoder α := fun c => ⟨.ok a, c, []⟩

/-- Read a value, then go on from where it ended. The first failure is final. -/
protected def bind (d : Decoder α) (f : α → Decoder β) : Decoder β := fun c =>
  let first := d c
  match first.result with
  | .ok a =>
      let second := f a first.cursor
      ⟨second.result, second.cursor, first.notices ++ second.notices⟩
  | .error e => ⟨.error e, first.cursor, first.notices⟩

instance : Monad Decoder where
  pure := Decoder.pure
  bind := Decoder.bind

/-! ### Reads -/

def position : Decoder Nat := fun c => ⟨.ok c.position, c, []⟩

/-- The position of the cursor as an address. Positions beyond the last word
    have none: the image is too long. -/
def address : Decoder UInt16 := fun c =>
  if c.position < 65536 then ⟨.ok c.position.toUInt16, c, []⟩
  else ⟨.error (.oversize c.length), c, []⟩

def notify (notices : List Notice) : Decoder Unit := fun c => ⟨.ok (), c, notices⟩

def byte : Decoder UInt8 := fun c =>
  match c.rest with
  | b :: rest => ⟨.ok b, ⟨c.position + 1, rest⟩, []⟩
  | [] => ⟨.error (.outOfData c.position c.length), c, []⟩

/-- The next word, low byte first. -/
def word : Decoder UInt16 := do
  let low ← byte
  let high ← byte
  return wordOfBytes low high

/-! ### Consumption -/

/-- Whenever the decoder succeeds it has consumed at least `n` bytes. -/
def Advances (n : Nat) (d : Decoder α) : Prop :=
  ∀ c a, (d c).result = .ok a → (d c).cursor.rest.length + n ≤ c.rest.length

theorem advances_pure (a : α) : Advances 0 (pure a : Decoder α) :=
  fun _ _ _ => Nat.le_refl _

theorem advances_position : Advances 0 position :=
  fun _ _ _ => Nat.le_refl _

theorem advances_notify (notices : List Notice) : Advances 0 (notify notices) :=
  fun _ _ _ => Nat.le_refl _

theorem advances_address : Advances 0 address := by
  intro c a h
  unfold address at h ⊢
  split <;> exact Nat.le_refl _

theorem advances_byte : Advances 1 byte := by
  intro c a h
  unfold byte at h ⊢
  split
  · rename_i hrest
    simp [hrest]
  · rename_i hrest
    simp [hrest] at h

/-- In sequence, the bytes consumed add up. -/
theorem Advances.bind {m n : Nat} {d : Decoder α} {f : α → Decoder β}
    (hd : Advances m d) (hf : ∀ a, Advances n (f a)) : Advances (m + n) (d >>= f) := by
  intro c b h
  change (Decoder.bind d f c).result = .ok b at h
  change (Decoder.bind d f c).cursor.rest.length + (m + n) ≤ c.rest.length
  unfold Decoder.bind at h ⊢
  cases hfirst : (d c).result with
  | error e => simp [hfirst] at h
  | ok a =>
    simp only [hfirst] at h ⊢
    have h₁ := hd c a hfirst
    have h₂ := hf a _ b h
    omega

theorem Advances.weaken {n : Nat} {d : Decoder α} (h : Advances n d) : Advances 0 d := by
  intro c a hc
  have := h c a hc
  omega

theorem advances_word : Advances 2 word :=
  advances_byte.bind fun _ => advances_byte.bind fun _ => advances_pure _

end Decoder

end Disassembly
