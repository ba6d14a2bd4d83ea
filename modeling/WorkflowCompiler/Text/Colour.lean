/-!
# Coloured text

A coloured piece of text begins with the code of its colour and ends with the
code for the default colour. The colour is interrupted at line breaks, and taken
up again after a reset inside the piece.
-/
namespace WorkflowCompiler.Text

inductive Colour
  | red | green | yellow | blue | magenta | gray
deriving DecidableEq, Repr

def Colour.code : Colour → String
  | .red => "31"
  | .green => "32"
  | .yellow => "33"
  | .blue => "34"
  | .magenta => "35"
  | .gray => "90"

/-- The sequence that begins a style. -/
def escape (code : String) : List Char := '\x1b' :: '[' :: code.toList ++ ['m']

/-- The sequence that goes back to the default colour. -/
def resetColour : List Char := escape "39"

/-- The inside of a coloured piece. -/
def paintInside (start : List Char) : List Char → List Char
  | '\x1b' :: '[' :: '3' :: '9' :: 'm' :: rest => resetColour ++ start ++ paintInside start rest
  | '\r' :: '\n' :: rest => resetColour ++ '\r' :: '\n' :: start ++ paintInside start rest
  | '\n' :: rest => resetColour ++ '\n' :: start ++ paintInside start rest
  | c :: rest => c :: paintInside start rest
  | [] => []

/-- A text in a colour, where colours are shown. An empty text stays empty. -/
def paint (shown : Bool) (colour : Colour) (s : String) : String :=
  if shown && s != "" then
    String.ofList (escape colour.code ++ paintInside (escape colour.code) s.toList ++ resetColour)
  else s

end WorkflowCompiler.Text
