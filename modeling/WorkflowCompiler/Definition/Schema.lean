import WorkflowCompiler.Definition.Vocabulary
import WorkflowCompiler.Markup.Document

/-!
# The schema of definitions

Which elements and attributes a definition must have. A shape asks for attributes
that are not blank and counts the children of some names; the children it counts
may have shapes of their own. All departures are reported, in order.
-/
namespace WorkflowCompiler.Definition
open Markup (Element)

mutual

/-- What is asked of an element. -/
inductive Shape
  /-- Anything is accepted. -/
  | any
  /-- Attributes that must not be blank, rules for children, and, for actions, exactly one child
      that says what to run. -/
  | element (attributes : List String) (rules : Rules) (oneType : Bool)

/-- Rules for the children of an element, one for each name that is looked at. -/
inductive Rules
  | nil
  | cons (tag : String) (least : Nat) (most : Option Nat) (shape : Shape) (rest : Rules)

end

namespace Shape

def attributesOnly (attributes : List String) : Shape := .element attributes .nil false

def withRules (attributes : List String) (rules : Rules) : Shape := .element attributes rules false

/-- An element that leads to a node. -/
def transition : Shape := attributesOnly [Key.target]

/-- One property: a name, and at most one value. -/
def property : Shape :=
  withRules [] <|
    .cons Tag.propertyName 1 (some 1) .any <|
    .cons Tag.propertyValue 0 (some 1) .any .nil

def properties : Shape := withRules [] (.cons Tag.property 0 none property .nil)

/-- The branches of a decision. -/
def switch : Shape :=
  withRules [] <|
    .cons Tag.switchCase 0 none transition <|
    .cons Tag.switchDefault 1 (some 1) transition .nil

def action : Shape :=
  .element [Key.name]
    (.cons Tag.ok 1 (some 1) transition <| .cons Tag.error 1 (some 1) transition .nil) true

/-- The shapes of the elements that a definition may hold. -/
def ofTag? (tag : String) : Option Shape :=
  List.lookup tag
    [(Tag.start, transition),
      (Tag.finish, attributesOnly [Key.name]),
      (Tag.kill, withRules [Key.name] (.cons Tag.message 0 (some 1) .any .nil)),
      (Tag.fork,
        withRules [Key.name] (.cons Tag.forkPath 1 none (attributesOnly [Key.start]) .nil)),
      (Tag.join, attributesOnly [Key.name, Key.target]),
      (Tag.decision, withRules [Key.name] (.cons Tag.switch 1 (some 1) switch .nil)),
      (Tag.action, action),
      (Tag.globals,
        withRules [] <|
          .cons Tag.nameNode 0 (some 1) .any <|
          .cons Tag.jobTracker 0 (some 1) .any <|
          .cons Tag.configuration 0 (some 1) properties .nil),
      (Tag.parameters, properties),
      (Tag.credentials, attributesOnly []),
      (Tag.slaInfo, attributesOnly [])]

end Shape

/-- How an element is named on the way to it. -/
def pathStep (e : Element) : String :=
  match e.attribute? Key.name with
  | none => e.name
  | some name => if name = "" then e.name else e.name ++ "[" ++ name ++ "]"

/-- The attributes that are missing or blank. -/
def attributeIssues (e : Element) (path : List String) (keys : List String) : List SchemaIssue :=
  keys.filterMap fun key =>
    if Text.isBlankText ((e.attribute? key).getD "") then
      some ⟨path ++ ["@" ++ key], .missingAttribute key⟩
    else none

/-- The children of a name are too few or too many. -/
def countIssues (path : List String) (tag : String) (least : Nat) (most : Option Nat) (found : Nat) :
    List SchemaIssue :=
  (if found < least then [⟨path, .tooFew least tag found⟩] else []) ++
    match most with
    | none => []
    | some most => if most < found then [⟨path, .tooMany most tag found⟩] else []

/-- The children of an action that do not say what to run. -/
def otherActionChildren : List String := [Tag.ok, Tag.error, Tag.slaInfo, Tag.credentials]

def actionTypes (e : Element) : List Element := e.children.filter fun c => c.name ∉ otherActionChildren

/-- An action does not have exactly one child that says what to run. -/
def actionTypeIssues (e : Element) (path : List String) : List SchemaIssue :=
  if (actionTypes e).length = 1 then [] else [⟨path, .actionTypeCount (actionTypes e).length⟩]

mutual

def Shape.issues : Shape → Element → List String → List SchemaIssue
  | .any, _, _ => []
  | .element attributes rules oneType, e, path =>
    attributeIssues e path attributes ++ rules.issues e path ++
      if oneType then actionTypeIssues e path else []

def Rules.issues : Rules → Element → List String → List SchemaIssue
  | .nil, _, _ => []
  | .cons tag least most shape rest, e, path =>
    let found := e.childrenNamed tag
    found.flatMap (fun c => shape.issues c (path ++ [pathStep c])) ++
      countIssues path tag least most found.length ++ rest.issues e path

end

/-- The departures of an element right under the root. -/
def topElementIssues (e : Element) : List SchemaIssue :=
  match Shape.ofTag? e.name with
  | none => [⟨[pathStep e], .unexpectedElement e.name⟩]
  | some shape => shape.issues e [pathStep e]

/-- There is not exactly one start. -/
def startIssues (root : Element) : List SchemaIssue :=
  let found := (root.childrenNamed Tag.start).length
  if found = 1 then [] else [⟨[], .startCount found⟩]

/-- The departures of a definition. What a root of another name holds is not looked at. -/
def schemaIssues (root : Element) : List SchemaIssue :=
  let attributes := attributeIssues root [] [Key.name]
  if root.name = Tag.root then
    attributes ++ root.children.flatMap topElementIssues ++ startIssues root
  else ⟨["@" ++ Key.name], .wrongRoot Tag.root⟩ :: attributes

/-- Refuses a definition that departs from the schema. -/
def checkSchema (root : Element) : Except Fault Unit :=
  match schemaIssues root with
  | [] => .ok ()
  | issues => .error (.schema root.name issues)

/-- Refuses a text that is no definition according to the schema. -/
def validateSchema (definition : String) : Except Fault Unit :=
  match Markup.parse definition with
  | .error cause => .error (.markup cause)
  | .ok root => checkSchema root

end WorkflowCompiler.Definition
