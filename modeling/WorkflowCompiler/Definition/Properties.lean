import WorkflowCompiler.Definition.Vocabulary

/-!
# Configuration elements

A configuration is written as a list of properties, each with a name and a
value. Properties without a value do not count; one without a name is refused.
-/
namespace WorkflowCompiler.Definition
open Markup (Element)

/-- Writes properties into a configuration. -/
def readProperties (owner : String) (d : Dict String) : List Element → Except Fault (Dict String)
  | [] => .ok d
  | p :: rest =>
    match p.childText? Tag.propertyName with
    | none => .error (.propertyWithoutName owner)
    | some name =>
      if name = "" then .error (.propertyWithoutName owner)
      else
        match p.childText? Tag.propertyValue with
        | none => readProperties owner d rest
        | some value => readProperties owner (d.put name value) rest

def readConfiguration (e : Element) : Except Fault (Dict String) :=
  readProperties e.name .empty (e.childrenNamed Tag.property)

def propertyElement (name value : String) : Element :=
  { name := Tag.property
    children := [Element.ofText Tag.propertyName name, Element.ofText Tag.propertyValue value] }

def configurationElement (d : Dict String) : Element :=
  { name := Tag.configuration, children := d.entries.map fun e => propertyElement e.1 e.2 }

end WorkflowCompiler.Definition
