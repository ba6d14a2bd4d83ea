import WorkflowCompiler.Fault
import WorkflowCompiler.Text.Units

/-!
# Legal node names

A name has at most 128 code units, begins with an ASCII letter or an underscore
and goes on with letters, digits, hyphens and underscores.
-/
namespace WorkflowCompiler

/-- A character that a node name can begin with. -/
def isNodeNameStart (c : Char) : Bool := c.isAlpha || c == '_'

/-- A character that a node name can go on with. -/
def isNodeNameChar (c : Char) : Bool := c.isAlphanum || c == '_' || c == '-'

/-- The form of a legal name, its length apart. -/
def hasNodeNameForm : List Char → Bool
  | [] => false
  | c :: rest => isNodeNameStart c && rest.all isNodeNameChar

/-- Refuses names that are too long or not of the right form. -/
def checkNodeName (name : String) : Except Fault Unit :=
  if nodeNameLimit < Text.width name then .error (.longNodeName name)
  else if hasNodeNameForm name.toList then .ok ()
  else .error (.illegalNodeName name)

end WorkflowCompiler
