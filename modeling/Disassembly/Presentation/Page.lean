import Disassembly.Presentation.Markup
import Disassembly.Presentation.Options
import Disassembly.Presentation.Writer

/-!
# Listing pages

A listing as a markup page. The columns of a line stand in one span that cannot
be selected: it opens before the address and closes after the opcode, and it is
there if any column is shown. Classes give the looks, and a style sheet made
from the palette may come first.
-/

namespace Disassembly

def Style.className : Style → String
  | hex => "style_hex"
  | keyword => "style_keyword"
  | typeName => "style_type"
  | address => "style_addr"
  | error => "style_error"

/-- One rule for each style. -/
def Palette.rules (palette : Palette) : String :=
  String.join ([Style.hex, .keyword, .typeName, .address, .error].map fun style =>
    "." ++ style.className ++ "\x7bcolor:" ++ (palette.color style).css ++ "\x7d")

namespace Page

/-- Where in a line the next token goes. -/
inductive State where
  | column (column : Column)
  | body
deriving DecidableEq, Repr

def next : State → Event → State
  | _, .start => .column .address
  | .column .address, .token _ => .column .opcode
  | .column .opcode, .token _ => .body
  | .body, .token .lineBreak => .column .address
  | .body, .token _ => .body
  | state, .finish => state
  | state, .oversize _ => state

def stylesheet (options : Options) : List Markup :=
  if options.stylesheet then Markup.enclose .style none [.text options.palette.rules] else []

/-- The class of text that cannot be selected. -/
def noSelect (quoting : Quoting) : ClassName := ⟨"no_select", quoting⟩

def opening (options : Options) : List Markup :=
  stylesheet options ++
  [.opening .pre none] ++
  (if options.header then Markup.enclose .heading none [.text "Displaying Disassembly"] else []) ++
  [.opening .division (some ⟨"DisassemblyBox", .double⟩)] ++
  (if options.header then Markup.span (noSelect .single) options.columns.caption ++ [.rule] else [])

/-- A token in hexadecimal style, whatever it is. -/
def hex (token : Token) : List Markup :=
  Markup.span ⟨Style.hex.className, .double⟩ ("$" ++ token.text)

def cell (columns : Columns) (column : Column) (token : Token) : List Markup :=
  let shown := if columns.shows column then hex token ++ [.text "\t"] else []
  match columns.showsAny, column with
  | true, .address => .opening .span (some (noSelect .double)) :: shown
  | true, .opcode => shown ++ [.closing .span]
  | false, _ => shown

/-- A token behind the columns. A tab follows every keyword and a blank every comma. -/
def bodyMarkup : Token → List Markup
  | .keyword name => Markup.span ⟨Style.keyword.className, .double⟩ name ++ [.text "\t"]
  | .hex value width => hex (.hex value width)
  | .typeName name => Markup.span ⟨Style.typeName.className, .double⟩ name
  | .varAddress id => Markup.span ⟨Style.address.className, .bare⟩ (Token.varAddress id).text
  | .punctuation "," => [.text ", "]
  | .punctuation text => [.text text]
  | .var id => [.text (Token.var id).text]
  | .unknown what => [.text what.text]
  | .lineBreak => [.lineBreak]

/-- What is shown in place of a listing that is too long. -/
def banner (options : Options) (length : Nat) : List Markup :=
  stylesheet options ++
  Markup.enclose .heading none (Markup.span ⟨Style.error.className, .single⟩ "Error") ++
  [.text " ROM size exceeded 16-bit integer limit."] ++
  Markup.span ⟨"small", .double⟩ (" (Got " ++ toString length ++ " bytes)")

def markup (options : Options) : State → Event → List Markup
  | _, .start => opening options
  | .column column, .token token => cell options.columns column token
  | .body, .token token => bodyMarkup token
  | _, .finish => [.closing .division, .closing .pre]
  | _, .oversize length => banner options length

def writer (options : Options) : Writer State where
  fresh := .column .address
  next := next
  text state event := String.join ((markup options state event).map Markup.write)

end Page

end Disassembly
