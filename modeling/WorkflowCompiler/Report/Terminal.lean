import WorkflowCompiler.Report.Basic
import WorkflowCompiler.Text.Colour
import WorkflowCompiler.Text.Units

/-!
# Reports for a terminal

The wording of reports in lines, with colours where they are shown.
-/
namespace WorkflowCompiler.Report
open Text

/-- Names with commas between them, or the word for none. -/
def namesText (names : List String) : String :=
  let text := ", ".intercalate names
  if text = "" then "none" else text

def summaryText (colours : Bool) (s : Summary) : String :=
  "\n".intercalate
    [paint colours .green ("✓ " ++ s.name ++ " is valid"),
      paint colours .gray
        ("  Nodes:  " ++ toString s.nodes ++ " (" ++ toString s.reachable ++ " reachable)"),
      paint colours .gray ("  Forks:  " ++ namesText s.forks),
      paint colours .gray ("  Joins:  " ++ namesText s.joins)]

def failureText (colours : Bool) (f : Failure) : String :=
  let first := paint colours .red ("✗ [" ++ f.code ++ "] " ++ f.message)
  match f.node with
  | none => first
  | some node => first ++ "\n" ++ paint colours .gray ("  Node: " ++ node)

def kindColour : NodeKind → Colour
  | .start => .green
  | .finish => .green
  | .kill => .red
  | .action => .blue
  | .decision => .yellow
  | .fork => .magenta
  | .join => .magenta

/-- The width of the column of kinds. -/
def kindWidth : Nat := 8

/-- The line of a node, where the column of names has the given width. -/
def rowText (colours : Bool) (nameWidth : Nat) (r : NodeRow) : String :=
  padRight r.name nameWidth ++ "  " ++
    paint colours (kindColour r.kind) (padRight r.kind.text kindWidth) ++ "  -> " ++
    if r.transitions.isEmpty then "-" else ", ".intercalate r.transitions

/-- The lines of the nodes of a workflow. -/
def nodesText (colours : Bool) (rows : List NodeRow) : String :=
  let nameWidth := (rows.map fun r => width r.name).foldl max 0
  "\n".intercalate (rows.map (rowText colours nameWidth))

/-- The name of the field that takes the text form from a mapping. -/
def textFormField : String := "toString"

mutual

/-- The text of a value that is not written as data, if it has one. A list is its items with commas
    between them. -/
def plainText? : Value → Option String
  | .absent => some "undefined"
  | .null => some "null"
  | .bool true => some "true"
  | .bool false => some "false"
  | .number n => some (n.text Decimal.plain)
  | .text s => some s
  | .list items => (itemTexts? items).map ",".intercalate
  | .mapping fields | .derived fields _ =>
    if (fields.lookup textFormField).isSome then none else some "[object Object]"

/-- The texts of the items of a list; that of an item without a value is empty. -/
def itemTexts? : List Value → Option (List String)
  | [] => some []
  | v :: rest =>
    match v with
    | .absent | .null => (itemTexts? rest).map fun texts => "" :: texts
    | v => (plainText? v).bind fun text => (itemTexts? rest).map fun texts => text :: texts

end

def noTextMessage : String := "Cannot convert object to primitive value"

end WorkflowCompiler.Report
