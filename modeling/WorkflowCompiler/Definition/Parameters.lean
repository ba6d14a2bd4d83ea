import WorkflowCompiler.Attempt
import WorkflowCompiler.Definition.Vocabulary

/-!
# Parameters

A definition may declare parameters. Those that the job configuration does not
set take their default values; a parameter that is left without a value is an
error, and all of these are named together.
-/
namespace WorkflowCompiler.Definition
open Markup (Element)

/-- Fills in declared parameters; `missing` are those left without a value so far. -/
def fillParameters (conf : Dict String) (missing : List String) :
    List Element → Attempt (Dict String) Unit
  | [] => if missing.isEmpty then .succeed conf () else .fail conf (.missingParameters missing)
  | p :: rest =>
    match (p.childText? Tag.propertyName).map Text.trim with
    | none => .fail conf .parameterWithoutName
    | some name =>
      if name = "" then .fail conf .parameterWithoutName
      else if conf.contains name then fillParameters conf missing rest
      else
        match p.childText? Tag.propertyValue with
        | some value => fillParameters (conf.put name value) missing rest
        | none => fillParameters conf (missing ++ [name]) rest

/-- Checks the job configuration against the parameters that a definition declares. -/
def verifyParameters (root : Element) (conf : Dict String) : Attempt (Dict String) Unit :=
  match root.child? Tag.parameters with
  | none => .succeed conf ()
  | some parameters => fillParameters conf [] (parameters.childrenNamed Tag.property)

end WorkflowCompiler.Definition
