/-!
# Output formats

The formats a listing can be written in and the names they go by.
-/

namespace Disassembly

/-- A markup page, tab-separated text, or the same text with terminal colours. -/
inductive Format where
  | html
  | text
  | ansi
deriving DecidableEq, Repr

namespace Format

/-- The format that a name stands for. -/
def ofName? : String → Option Format
  | "html" | "HTML" => some html
  | "text" | "txt" | "plain" => some text
  | "ansi" | "color" | "colour" => some ansi
  | _ => none

def label : Format → String
  | html => "Html"
  | text => "Text"
  | ansi => "Ansi"

end Format

end Disassembly
