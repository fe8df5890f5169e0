import Disassembly.Presentation.Options
import Disassembly.Presentation.Writer

/-!
# Terminal listings

A listing as lines of text with tabs between the columns. The first two tokens
of a line are its address and opcode and go into columns that may be hidden. A
tab follows the mnemonic only if something else follows it, so no line ends in
a tab.

The lines are made of fragments. Plain text and coloured text differ only in
how a styled fragment is written.
-/

namespace Disassembly

/-- A stretch of text that has a style or has none. -/
inductive Fragment where
  | plain (text : String)
  | styled (style : Style) (text : String)
deriving DecidableEq, Repr

/-- Styled text has its colour if there is a palette to take it from. -/
def Fragment.write (palette? : Option Palette) : Fragment → String
  | plain text => text
  | styled style text =>
      match palette? with
      | some palette => (palette.color style).foreground ++ text ++ Color.reset
      | none => text

namespace Terminal

/-- Where in a line the next token goes. -/
inductive State where
  | column (column : Column)
  /-- Behind the columns; `tabDue` is set right after a keyword. -/
  | body (tabDue : Bool)
deriving DecidableEq, Repr

def next : State → Event → State
  | _, .start => .column .address
  | .column .address, .token _ => .column .opcode
  | .column .opcode, .token _ => .body false
  | .body _, .token .lineBreak => .column .address
  | .body _, .token (.keyword _) => .body true
  | .body _, .token _ => .body false
  | state, .finish => state
  | state, .oversize _ => state

/-- A token in hexadecimal style, whatever it is. -/
def hexFragment (token : Token) : Fragment := .styled .hex ("$" ++ token.text)

/-- A token behind the columns. A comma is followed by a blank. -/
def bodyFragment : Token → Fragment
  | .keyword name => .styled .keyword name
  | .hex value width => hexFragment (.hex value width)
  | .typeName name => .styled .typeName name
  | .varAddress id => .styled .address (Token.varAddress id).text
  | .unknown what => .styled .error what.text
  | .punctuation "," => .plain ", "
  | .punctuation text => .plain text
  | .var id => .plain (Token.var id).text
  | .lineBreak => .plain Token.lineBreak.text

def fragments (columns : Columns) (header : Bool) : State → Event → List Fragment
  | _, .start => if header then [.plain columns.caption, .plain "\n"] else []
  | .column column, .token token =>
      if columns.shows column then [hexFragment token, .plain "\t"] else []
  | .body _, .token .lineBreak => [.plain "\n"]
  | .body tabDue, .token token =>
      (if tabDue then [.plain "\t"] else []) ++ [bodyFragment token]
  | _, .finish => []
  | _, .oversize length =>
      [.styled .error
        ("Error: ROM size exceeded 16-bit integer limit. (Got " ++ toString length ++ " bytes)"),
       .plain "\n"]

/-- Only one format has colours. -/
def palette? (options : Options) : Option Palette :=
  if options.format = .ansi then some options.palette else none

def writer (options : Options) : Writer State where
  fresh := .column .address
  next := next
  text state event :=
    String.join ((fragments options.columns options.header state event).map
      (Fragment.write (palette? options)))

end Terminal

end Disassembly
