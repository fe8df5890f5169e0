import Disassembly.Text.Hex

/-!
# Colours

A 24-bit colour, its form in a style sheet, and the terminal sequence that
switches the foreground to it.
-/

namespace Disassembly

/-- A colour given by its red, green and blue parts. -/
structure Color where
  r : UInt8
  g : UInt8
  b : UInt8
deriving DecidableEq, Repr

namespace Color

/-! ### Named colours -/

def black : Color := ⟨0, 0, 0⟩
def white : Color := ⟨255, 255, 255⟩
def red : Color := ⟨255, 0, 0⟩
def green : Color := ⟨0, 255, 0⟩
def blue : Color := ⟨0, 0, 255⟩
def gray : Color := ⟨128, 128, 128⟩
def magenta : Color := ⟨255, 0, 255⟩
def yellow : Color := ⟨255, 255, 0⟩
def cyan : Color := ⟨0, 255, 255⟩
def orange : Color := ⟨255, 165, 0⟩

/-! ### Written forms -/

/-- The colour in a style sheet: `#` and two digits for each part. -/
def css (c : Color) : String :=
  "#" ++ Hex.numeral 2 c.r.toNat ++ Hex.numeral 2 c.g.toNat ++ Hex.numeral 2 c.b.toNat

/-- The terminal sequence that makes the colour the foreground. -/
def foreground (c : Color) : String :=
  "\x1b[38;2;" ++ toString c.r.toNat ++ ";" ++ toString c.g.toNat ++ ";" ++
    toString c.b.toNat ++ "m"

def reset : String := "\x1b[0m"

end Color

end Disassembly
