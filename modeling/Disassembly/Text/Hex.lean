/-!
# Hexadecimal numerals

Numbers in listings, messages and colours are written in base sixteen with
uppercase digits, most significant first. A numeral has a least width: zeros
fill it from the left, and a number that needs more digits keeps all of them.
-/

namespace Disassembly.Hex

def digit (d : Nat) : Char :=
  if d < 10 then Char.ofNat (48 + d) else Char.ofNat (55 + d)

/-- The digits of a number without leading zeros; zero itself has one digit. -/
def digits (n : Nat) : List Char :=
  if n < 16 then [digit n] else digits (n / 16) ++ [digit (n % 16)]
termination_by n
decreasing_by omega

/-- The numeral of `n` with at least `width` digits. -/
def numeral (width n : Nat) : String :=
  String.ofList ((digits n).leftpad width '0')

/-- A numeral behind the marker `0x`, which does not count towards the width. -/
def marked (width n : Nat) : String :=
  "0x" ++ numeral width n

end Disassembly.Hex
