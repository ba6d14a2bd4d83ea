import WorkflowCompiler.Fault
import WorkflowCompiler.Markup.Element
import WorkflowCompiler.Text.Blank

/-!
# The language of definitions

The names of elements and attributes that have a meaning in a definition, and
how an attribute that must be there is read.
-/
namespace WorkflowCompiler.Definition
open Markup (Element)

namespace Tag

def root := "workflow-app"
def start := "start"
def finish := "end"
def kill := "kill"
def action := "action"
def decision := "decision"
def fork := "fork"
def join := "join"
def globals := "global"
def parameters := "parameters"
def credentials := "credentials"
def slaInfo := "info"
def forkPath := "path"
def ok := "ok"
def error := "error"
def switch := "switch"
def switchCase := "case"
def switchDefault := "default"
def message := "message"
def nameNode := "name-node"
def jobTracker := "job-tracker"
def jobXml := "job-xml"
def configuration := "configuration"
def property := "property"
def propertyName := "name"
def propertyValue := "value"
def propagateConfiguration := "propagate-configuration"
/-- The action type that runs another workflow. -/
def subWorkflow := "sub-workflow"
/-- The action type for file system operations, which needs no job tracker. -/
def fileSystem := "fs"

end Tag

namespace Key

def name := "name"
def target := "to"
def start := "start"
def credential := "cred"
def retryMax := "retry-max"
def retryInterval := "retry-interval"

end Key

/-- The value of an attribute that must be there and must not be blank. -/
def requireAttribute (e : Element) (key : String) : Except Fault String :=
  match e.attribute? key with
  | none => .error (.missingAttribute e.name (e.attribute? Key.name) key)
  | some value =>
    if Text.isBlankText value then .error (.missingAttribute e.name (e.attribute? Key.name) key)
    else .ok value

end WorkflowCompiler.Definition
