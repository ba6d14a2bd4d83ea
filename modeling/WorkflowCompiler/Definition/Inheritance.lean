import WorkflowCompiler.ActionType
import WorkflowCompiler.Attempt
import WorkflowCompiler.Globals.Basic

/-!
# What actions inherit

An action takes end points from the global defaults or from the site unless it
has its own, and types that need them are refused when there are none. It takes
job files from the global defaults, after its own. Its configuration is merged
from a default layer, the global defaults and its own properties, where a later
layer wins key by key. The global section itself is filled in the same way from
the workflow that started this one.
-/
namespace WorkflowCompiler.Definition
open Markup (Element)

/-- The end points of a site, where it sets some. -/
structure Endpoints where
  nameNode : Option String := none
  jobTracker : Option String := none
deriving DecidableEq, Repr

/-- A trimmed text; a blank one counts as none. -/
def nonBlank (value : Option String) : Option String :=
  match value with
  | none => none
  | some s => if Text.trim s = "" then none else some (Text.trim s)

/-- What inheritance depends on besides the element. -/
structure Inheritance where
  registry : Registry
  site : Endpoints := {}

/-- The end points of a site, trimmed. -/
def Inheritance.endpoints (i : Inheritance) : Endpoints :=
  ⟨nonBlank i.site.nameNode, nonBlank i.site.jobTracker⟩

/-- Adds an end point to an element that has none. -/
def fillEndpoint (e : Element) (field : String) (inherited siteDefault : Option String)
    (exempt : Bool) (node : Option String) : Except Fault Element :=
  match e.child? field with
  | some _ => .ok e
  | none =>
    match inherited.or siteDefault with
    | some value => .ok (e.append (Element.ofText field value))
    | none => if exempt then .ok e else .error (.missingEndpoint field e.name node)

/-- Adds job files that an element does not list yet. -/
def appendJobXmls (e : Element) : List String → Element
  | [] => e
  | x :: rest =>
    if x ∈ (e.childrenNamed Tag.jobXml).map Element.text then appendJobXmls e rest
    else appendJobXmls (e.append (Element.ofText Tag.jobXml x)) rest

def replaceFirst (name : String) (new : Element) : List Element → List Element
  | [] => []
  | c :: rest => if c.name = name then new :: rest else c :: replaceFirst name new rest

/-- The layers below an element's own configuration. -/
def lowerLayers (globals : Option GlobalDefaults) (layer : Option (Dict String)) : Dict String :=
  let bottom := layer.getD .empty
  match globals.bind GlobalDefaults.configuration with
  | none => Dict.empty.overlay bottom
  | some d => (Dict.empty.overlay bottom).overlay d

/-- Merges the configuration of an element over the layers below it. -/
def mergeConfiguration (e : Element) (globals : Option GlobalDefaults) (layer : Option (Dict String)) :
    Except Fault Element :=
  let lower := lowerLayers globals layer
  match e.child? Tag.configuration with
  | none => .ok (e.append (configurationElement lower))
  | some own =>
    match readConfiguration own with
    | .error fault => .error fault
    | .ok d =>
      .ok { e with
        children := replaceFirst Tag.configuration (configurationElement (lower.overlay d)) e.children }

def takesEndpoints (type : String) (descriptor : Option ActionType) : Bool :=
  type == Tag.globals || type == Tag.subWorkflow || type == Tag.fileSystem ||
    (descriptor.map ActionType.requiresEndpoints).getD false

/-- Whether a type can do without end points. -/
def isExempt (type : String) : Bool :=
  type == Tag.globals || type == Tag.subWorkflow || type == Tag.fileSystem

def takesConfiguration (type : String) (descriptor : Option ActionType) : Bool :=
  type == Tag.globals || (descriptor.map ActionType.supportsConfiguration).getD false

/-- A step that either gives a new state or fails in the old one. -/
def stepOf {σ : Type} (state : σ) (result : Except Fault σ) : Attempt σ Unit :=
  match result with
  | .ok next => .succeed next ()
  | .error fault => .fail state fault

/-- Adds the end points that a type takes. -/
def resolveEndpoints (i : Inheritance) (e : Element) (globals : Option GlobalDefaults)
    (node : Option String) : Attempt Element Unit :=
  let exempt := isExempt e.name
  (stepOf e (fillEndpoint e Tag.nameNode (globals.bind GlobalDefaults.nameNode) i.endpoints.nameNode
      exempt node)).andThen fun e _ =>
    if e.name = Tag.fileSystem then .succeed e ()
    else
      stepOf e (fillEndpoint e Tag.jobTracker (globals.bind GlobalDefaults.jobTracker)
        i.endpoints.jobTracker exempt node)

/-- Adds the job files and the configuration that a type takes. -/
def resolveConfiguration (e : Element) (globals : Option GlobalDefaults)
    (layer : Option (Dict String)) : Attempt Element Unit :=
  let e := appendJobXmls e ((globals.map GlobalDefaults.jobXmls).getD [])
  stepOf e (mergeConfiguration e globals layer)

/-- Fills in what an element inherits. When that fails, what was filled in before stays. -/
def inherit (i : Inheritance) (e : Element) (globals : Option GlobalDefaults)
    (layer : Option (Dict String)) (node : Option String) : Attempt Element Unit :=
  let descriptor := i.registry.get? e.name
  if descriptor.isNone && e.name != Tag.globals then .fail e (.unsupportedType e.name node)
  else
    let withEndpoints :=
      if takesEndpoints e.name descriptor then resolveEndpoints i e globals node else .succeed e ()
    withEndpoints.andThen fun e _ =>
      if takesConfiguration e.name descriptor then resolveConfiguration e globals layer
      else .succeed e ()

end WorkflowCompiler.Definition
