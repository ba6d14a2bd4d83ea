import WorkflowCompiler.Definition.Properties

/-!
# Global defaults

What a workflow sets for all its actions: the end points, job files and a
configuration. A default that is absent is not the same as an empty one.
-/
namespace WorkflowCompiler

/-- The defaults that actions inherit. -/
structure GlobalDefaults where
  jobTracker : Option String := none
  nameNode : Option String := none
  jobXmls : List String := []
  configuration : Option (Dict String) := none
deriving DecidableEq

namespace GlobalDefaults
open Definition Markup

def ofSection (e : Element) : Except Fault GlobalDefaults :=
  let withConfiguration := fun configuration =>
    { jobTracker := e.childText? Tag.jobTracker
      nameNode := e.childText? Tag.nameNode
      jobXmls := (e.childrenNamed Tag.jobXml).map Element.text
      configuration : GlobalDefaults }
  match e.child? Tag.configuration with
  | none => .ok (withConfiguration none)
  | some c => (readConfiguration c).map fun d => withConfiguration (some d)

end GlobalDefaults
end WorkflowCompiler
