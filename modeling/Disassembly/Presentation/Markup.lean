/-!
# Markup

The vocabulary of the listing page: a few elements that are opened and closed,
two that stand alone, and text, which is written as it is.
-/

namespace Disassembly

inductive Element where
  | style
  | pre
  | heading
  | division
  | span
deriving DecidableEq, Repr

def Element.name : Element → String
  | style => "style"
  | pre => "pre"
  | heading => "h2"
  | division => "div"
  | span => "span"

/-- How the value of an attribute is quoted. -/
inductive Quoting where
  | bare
  | single
  | double
deriving DecidableEq, Repr

def Quoting.mark : Quoting → String
  | bare => ""
  | single => "'"
  | double => "\""

/-- The class of an element, with the quotes it is written in. -/
structure ClassName where
  name : String
  quoting : Quoting := .double
deriving DecidableEq, Repr

def ClassName.attribute (c : ClassName) : String :=
  " class=" ++ c.quoting.mark ++ c.name ++ c.quoting.mark

inductive Markup where
  | text (content : String)
  | opening (element : Element) (className : Option ClassName)
  | closing (element : Element)
  | rule
  | lineBreak
deriving DecidableEq, Repr

namespace Markup

def write : Markup → String
  | text content => content
  | opening element none => "<" ++ element.name ++ ">"
  | opening element (some className) => "<" ++ element.name ++ className.attribute ++ ">"
  | closing element => "</" ++ element.name ++ ">"
  | rule => "<hr>"
  | lineBreak => "<br/>"

def enclose (element : Element) (className : Option ClassName) (content : List Markup) :
    List Markup :=
  opening element className :: (content ++ [closing element])

def span (className : ClassName) (content : String) : List Markup :=
  enclose .span (some className) [text content]

end Markup

end Disassembly
