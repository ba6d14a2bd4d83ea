import WorkflowCompiler.Files

/-!
# What can be wrong with a configuration

The faults of the configuration of a site and of a job. What is wrong with values
of the wrong form is listed issue by issue.
-/
namespace WorkflowCompiler.Site

/-- The kinds of values that a configuration can hold. -/
inductive ValueKind
  | null | list | mapping | text | number | notANumber | bool
deriving DecidableEq, Repr

def ValueKind.name : ValueKind → String
  | .null => "null"
  | .list => "array"
  | .mapping => "object"
  | .text => "string"
  | .number => "number"
  | .notANumber => "nan"
  | .bool => "boolean"

/-- What is wrong with a value. -/
inductive Misfit
  | required
  | wrongKind (expected received : ValueKind)
  | empty
  | unknownLevel (received : String)
  | levelOfKind (received : ValueKind)
  | repeatedAction (type : String)
deriving DecidableEq, Repr

/-- The names that a log level can have, in quotes. -/
def levelChoice : String := "'debug' | 'info' | 'warn' | 'error'"

def Misfit.message : Misfit → String
  | .required => "Required"
  | .wrongKind expected received =>
    "Expected " ++ expected.name ++ ", received " ++ received.name
  | .empty => "String must contain at least 1 character(s)"
  | .unknownLevel received =>
    "Invalid enum value. Expected " ++ levelChoice ++ ", received '" ++ received ++ "'"
  | .levelOfKind received => "Expected " ++ levelChoice ++ ", received " ++ received.name
  | .repeatedAction type => "Action type \"" ++ type ++ "\" is declared more than once"

/-- Something wrong, with the way to it. -/
structure Issue where
  path : List String
  misfit : Misfit
deriving DecidableEq, Repr

def Issue.message (i : Issue) : String := ".".intercalate i.path ++ ": " ++ i.misfit.message

/-- Why the text of a configuration cannot be read. -/
inductive Unreadable
  | file (fault : FileFault)
  | notYaml
deriving DecidableEq, Repr

/-- The wording of a reason. -/
def Unreadable.message : Unreadable → String
  | .file fault => fault.message
  | .notYaml => "not a YAML document"

end WorkflowCompiler.Site

namespace WorkflowCompiler

def siteFileName : String := ".wfgraph.yml"

inductive ConfigFault
  | invalid (issues : List Site.Issue)
  | unreadableSite (reason : Site.Unreadable)
  | siteNotMapping
  | unreadableJob (path : String) (reason : Site.Unreadable)
  | jobNotMapping (path : String)
  | notScalar (key : String)
deriving DecidableEq, Repr

namespace ConfigFault

/-- The entry a fault is about, if it is about one. -/
def field? : ConfigFault → Option String
  | .notScalar key => some key
  | _ => none

def message : ConfigFault → String
  | .invalid issues => "Invalid configuration: " ++ "; ".intercalate (issues.map Site.Issue.message)
  | .unreadableSite reason => "Failed to parse " ++ siteFileName ++ ": " ++ reason.message
  | .siteNotMapping => siteFileName ++ " must contain a mapping at the top level"
  | .unreadableJob path reason =>
    "Failed to read job configuration " ++ path ++ ": " ++ reason.message
  | .jobNotMapping path => "Job configuration " ++ path ++ " must be a mapping of key: value"
  | .notScalar key => "Job configuration entry \"" ++ key ++ "\" must be a scalar value"

end ConfigFault
end WorkflowCompiler
