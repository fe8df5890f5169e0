import Disassembly.Text.Hex

/-!
# Tokens

The pieces of a listing line. A token says what a piece means; how it looks is
decided when the listing is written.
-/

namespace Disassembly

/-- A value without a meaning, as it is marked in a listing. -/
inductive Unknown where
  | opcode
  | dataType (byte : UInt8)
  | offsetTag (tag : UInt8)
deriving DecidableEq, Repr

/-- The words that stand for a value without a meaning. -/
def Unknown.text : Unknown → String
  | opcode => "unknown"
  | dataType _ => "UNKNOWN TYPE"
  | offsetTag _ => "UNKNOWN_DATA"

def variableName (id : UInt16) : String := "VAR_" ++ Hex.numeral 4 id.toNat

/-- A piece of a listing line. -/
inductive Token where
  | keyword (name : String)
  /-- A number with the least count of digits it is written with. -/
  | hex (value : UInt16) (width : UInt8)
  | typeName (name : String)
  | var (id : UInt16)
  | varAddress (id : UInt16)
  | punctuation (text : String)
  | lineBreak
  | unknown (what : Unknown)
deriving DecidableEq, Repr

namespace Token

/-- A whole word, written with four digits. -/
def word (value : UInt16) : Token := hex value 4

/-- The mark between two operands. -/
def comma : Token := punctuation ","

def text : Token → String
  | keyword name => name
  | hex value width => Hex.numeral width.toNat value.toNat
  | typeName name => name
  | var id => variableName id
  | varAddress id => "&" ++ variableName id
  | punctuation text => text
  | lineBreak => "\n"
  | unknown what => what.text

end Token

end Disassembly
