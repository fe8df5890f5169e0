import Disassembly.Format
import Disassembly.Text.Color

/-!
# Presentation options

What the reader of a listing can choose: the format, the columns in front of
the instructions, the header, the style sheet and the colours.
-/

namespace Disassembly

/-! ### Columns -/

/-- A column in front of the instructions. -/
inductive Column where
  | address
  | opcode
deriving DecidableEq, Repr

/-- The bit that stands for a column. -/
def Column.flag : Column → UInt8
  | address => 1
  | opcode => 2

/-- A choice of columns, one bit for each. Bits that stand for no column are
    kept and mean nothing. -/
structure Columns where
  bits : UInt8
deriving DecidableEq, Repr

namespace Columns

def all : Columns := ⟨Column.address.flag ||| Column.opcode.flag⟩

def shows (columns : Columns) (column : Column) : Bool :=
  columns.bits &&& column.flag != 0

def showsAny (columns : Columns) : Bool :=
  columns.shows .address || columns.shows .opcode

/-- The line above a listing that names what its lines show. -/
def caption (columns : Columns) : String :=
  (if columns.shows .address then "Addr\t" else "") ++
    (if columns.shows .opcode then "Op\t" else "") ++ "Disassembled"

end Columns

/-! ### Colours -/

/-- What a piece of a listing is, as far as its looks go. -/
inductive Style where
  | hex
  | keyword
  | typeName
  | address
  | error
deriving DecidableEq, Repr

structure Palette where
  hex : Color := .cyan
  keyword : Color := .orange
  typeName : Color := .green
  address : Color := .magenta
  error : Color := .red
deriving DecidableEq, Repr

def Palette.color (palette : Palette) : Style → Color
  | .hex => palette.hex
  | .keyword => palette.keyword
  | .typeName => palette.typeName
  | .address => palette.address
  | .error => palette.error

/-! ### Options -/

/-- All choices. The style sheet concerns markup only, and colours are used by
    the style sheet and on terminals. -/
structure Options where
  format : Format := .text
  columns : Columns := .all
  header : Bool := true
  stylesheet : Bool := false
  palette : Palette := {}
deriving DecidableEq, Repr

/-- The options for a format alone: a markup page brings its style sheet. -/
def Options.forFormat (format : Format) (header : Bool) : Options :=
  { format, header, stylesheet := format == .html }

end Disassembly
