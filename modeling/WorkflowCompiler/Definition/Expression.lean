import WorkflowCompiler.Dict
import WorkflowCompiler.Fault
import WorkflowCompiler.Text.Blank
import WorkflowCompiler.Text.Cut

/-!
# Expressions

Text with references to variables between `$\x7b` and `\x7d`. A reference stands for
the value of the variable in the job configuration, which is not scanned again.
Nothing but the name of a variable may stand in a reference.
-/
namespace WorkflowCompiler.Definition
open Text

inductive Piece
  | literal (c : Char)
  | reference (body : List Char)
deriving DecidableEq, Repr

/-- The pieces of an expression, with every reference that is closed. -/
def pieces (cs : List Char) : List Piece :=
  match cs with
  | [] => []
  | '$' :: '\x7b' :: rest =>
    match _h : breakOn ['\x7d'] rest with
    | some (body, rest) => .reference body :: pieces rest
    | none => .literal '$' :: .literal '\x7b' :: pieces rest
  | c :: rest => .literal c :: pieces rest
termination_by cs.length
decreasing_by
  · have := length_of_breakOn _h
    simp only [List.length_cons]
    omega
  · simp only [List.length_cons]
    omega
  · simp

/-- What an expression is without its references. -/
def literalText (ps : List Piece) : List Char :=
  ps.filterMap fun p => match p with
    | .literal c => some c
    | .reference _ => none

/-- A character that can begin the name of a variable. -/
def isVariableStart (c : Char) : Bool := c.isAlpha || c == '_'

/-- A character that the name of a variable can go on with. -/
def isVariableChar (c : Char) : Bool := c.isAlphanum || c == '_' || c == '.' || c == '-'

def isVariableName : List Char → Bool
  | [] => false
  | c :: rest => isVariableStart c && rest.all isVariableChar

def resolveReference (conf : Dict String) (body : List Char) : Except ExpressionFault (List Char) :=
  let name := trimChars body
  if !isVariableName name then .error (.unsupported (String.ofList body))
  else
    match conf.get? (String.ofList name) with
    | none => .error (.undefinedVariable (String.ofList name))
    | some value => .ok value.toList

/-- The pieces with the values of their references in place. -/
def substitute (conf : Dict String) : List Piece → Except ExpressionFault (List Char)
  | [] => .ok []
  | .literal c :: rest => (substitute conf rest).map (c :: ·)
  | .reference body :: rest =>
    match resolveReference conf body with
    | .error fault => .error fault
    | .ok value => (substitute conf rest).map (value ++ ·)

def resolveExpression (expression : String) (conf : Dict String) : Except ExpressionFault String :=
  let ps := pieces expression.toList
  if (breakOn ['$', '\x7b'] (literalText ps)).isSome then .error (.unterminated expression)
  else (substitute conf ps).map String.ofList

end WorkflowCompiler.Definition
