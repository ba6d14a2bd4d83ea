import WorkflowCompiler.Markup.Reading
import WorkflowCompiler.Markup.WellFormed

/-!
# Documents

A document is a well-formed text with exactly one element at the top.
-/
namespace WorkflowCompiler.Markup

def parse (text : String) : Except Fault Element :=
  match checkFault? text.toList with
  | some fault => .error fault
  | none =>
    match readElements text.toList with
    | .error cause => .error (.unreadable cause)
    | .ok [root] => .ok root
    | .ok roots => .error (.rootCount roots.length)

end WorkflowCompiler.Markup
