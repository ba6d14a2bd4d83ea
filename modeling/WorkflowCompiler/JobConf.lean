import WorkflowCompiler.Dict
import WorkflowCompiler.Site.Source
import WorkflowCompiler.Text.Blank
import WorkflowCompiler.Text.Cut

/-!
# Job configurations

A job configuration is a mapping of keys to texts, read from a file and from
definitions `key=value`. A definition is cut at its first equals sign; a later
one counts more than an earlier one and than the file.
-/
namespace WorkflowCompiler.JobConf
open Text

/-- A definition without a key or without an equals sign. -/
structure BadDefine where
  define : String
deriving DecidableEq, Repr

/-- The wording of the fault. -/
def BadDefine.message (f : BadDefine) : String := "Expected key=value, got \"" ++ f.define ++ "\""

/-- Adds a definition to a list, unless it has no equals sign after its first character. -/
def collectDefine (define : String) (previous : List String) : Except BadDefine (List String) :=
  match breakOn ['='] define.toList with
  | some (_ :: _, _) => .ok (previous ++ [define])
  | _ => .error ⟨define⟩

/-- The key and the value of a definition. Without an equals sign the key is all but the last
    character, and the value is the whole text. -/
def splitDefine (define : String) : String × String :=
  match breakOn ['='] define.toList with
  | some (key, value) => (String.ofList (trimChars key), String.ofList value)
  | none => (String.ofList (trimChars define.toList.dropLast), define)

def scalarText? : Value → Option String
  | .text s => some s
  | .number n => some (n.text Decimal.plain)
  | .bool true => some "true"
  | .bool false => some "false"
  | _ => none

/-- The entries of a mapping, whose values must be scalars. -/
def readEntries : List (String × Value) → Except ConfigFault (List (String × String))
  | [] => .ok []
  | (key, v) :: rest =>
    match scalarText? v with
    | none => .error (.notScalar key)
    | some s => (readEntries rest).map fun es => (key, s) :: es

/-- The entries of a job configuration's file that was asked for under a name. -/
def readFile (name : String) (entry : Except FileFault String) :
    Except ConfigFault (List (String × String)) :=
  match Site.readDocument entry with
  | .error reason => .error (.unreadableJob name reason)
  | .ok v =>
    match Site.documentFields v with
    | some fields => readEntries fields
    | none => .error (.jobNotMapping name)

/-- The entries of the file of a name. Without a name, or with an empty one, there are none. -/
def fileEntries (w : Workspace) : Option String → Except ConfigFault (List (String × String))
  | none => .ok []
  | some name => if name = "" then .ok [] else readFile name ((w.find name).read name)

/-- The job configuration of a file, if one is named, and of definitions. -/
def load (w : Workspace) (name : Option String) (defines : List String) :
    Except ConfigFault (Dict String) :=
  (fileEntries w name).map fun es => (Dict.ofList es).putAll (defines.map splitDefine)

end WorkflowCompiler.JobConf
