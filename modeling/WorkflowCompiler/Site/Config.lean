import WorkflowCompiler.Definition.Inheritance
import WorkflowCompiler.Log
import WorkflowCompiler.Site.Fault
import WorkflowCompiler.Value

/-!
# The configuration of a site

What a site sets for all workflows, and how it is read from a value that has not
been checked. Everything that is wrong is collected, in the order of the fields.
Action types that are declared twice are looked for only in a value whose fields
are all of the right kind.
-/
namespace WorkflowCompiler

structure SiteConfig where
  endpoints : Definition.Endpoints := {}
  /-- The lowest layer of the configuration of actions. -/
  configuration : Dict String := .empty
  /-- Whether forks and joins are checked. -/
  checksForkJoin : Bool := true
  /-- The action types that the site adds. -/
  actions : List ActionType := []
  logLevel : LogLevel := .info
deriving DecidableEq

namespace Site

/-- What was read, if it is of the right kind, and all that is wrong with it. -/
structure Checked (α : Type) where
  value : Option α
  issues : List Issue := []

namespace Checked
variable {α β : Type}

/-- A value with nothing wrong. -/
def ok (a : α) : Checked α := ⟨some a, []⟩

/-- Not of the right kind. -/
def fail (path : List String) (misfit : Misfit) : Checked α := ⟨none, [⟨path, misfit⟩]⟩

/-- Does something with the value. -/
def map (f : α → β) (a : Checked α) : Checked β := ⟨a.value.map f, a.issues⟩

/-- What is read after something else; what is wrong with both is listed in order. -/
def and (f : Checked (α → β)) (a : Checked α) : Checked β :=
  ⟨f.value.bind fun g => a.value.map g, f.issues ++ a.issues⟩

end Checked

def kindOf? : Value → Option ValueKind
  | .absent => none
  | .null => some .null
  | .bool _ => some .bool
  | .number .nan => some .notANumber
  | .number _ => some .number
  | .text _ => some .text
  | .list _ => some .list
  | .mapping _ | .derived .. => some .mapping

def refuse {α : Type} (path : List String) (expected : ValueKind) (v : Value) : Checked α :=
  match kindOf? v with
  | none => .fail path .required
  | some received => .fail path (.wrongKind expected received)

/-- An end point; a blank one counts as none. -/
def readEndpoint (path : List String) : Value → Checked (Option String)
  | .absent => .ok none
  | .text s => .ok (Definition.nonBlank (some s))
  | v => refuse path .text v

/-- A switch that is set one way when it is absent. -/
def readFlag (path : List String) (default : Bool) : Value → Checked Bool
  | .absent => .ok default
  | .bool b => .ok b
  | v => refuse path .bool v

def readText (path : List String) : Value → Checked String
  | .text s => .ok s
  | v => refuse path .text v

def emptyIssues (path : List String) (s : String) : List Issue := if s = "" then [⟨path, .empty⟩] else []

/-- A text that must not be empty; an empty one is still read. -/
def readName (path : List String) (v : Value) : Checked String :=
  match v with
  | .text s => ⟨some s, emptyIssues path s⟩
  | v => refuse path .text v

/-- The entries of a configuration; one with the reserved name is left out. -/
def readEntries (path : List String) : List (String × Value) → Checked (List (String × String))
  | [] => .ok []
  | (key, v) :: rest =>
    let place := path ++ [key]
    let entry : Checked (String × String) :=
      ⟨(readText place v).value.map fun s => (key, s), emptyIssues place key ++ (readText place v).issues⟩
    (entry.map fun e es => if e.1 = "__proto__" then es else e :: es).and (readEntries path rest)

/-- What the fields of a mapping hold; another value is refused. -/
def readMapping {α : Type} (path : List String) (v : Value)
    (read : List (String × Value) → Checked α) : Checked α :=
  match v.fields? with
  | some fields => read fields
  | none => refuse path .mapping v

/-- A configuration. -/
def readSettings (path : List String) (v : Value) : Checked (Dict String) :=
  match v with
  | .absent => .ok .empty
  | v => readMapping path v fun fields =>
    (readEntries path fields).map fun es => Dict.ofList (arrangeFields es)

/-- The end points and the configuration. -/
def readDefaults (path : List String) (v : Value) : Checked (Definition.Endpoints × Dict String) :=
  match v with
  | .absent => .ok ({}, .empty)
  | v => readMapping path v fun fields =>
    (((readEndpoint (path ++ ["nameNode"]) (Value.field fields "nameNode")).map fun nameNode jobTracker d =>
      (({ nameNode, jobTracker } : Definition.Endpoints), d)).and
      (readEndpoint (path ++ ["jobTracker"]) (Value.field fields "jobTracker"))).and
      (readSettings (path ++ ["configuration"]) (Value.field fields "configuration"))

/-- Whether forks and joins are checked. -/
def readValidation (path : List String) (v : Value) : Checked Bool :=
  match v with
  | .absent => .ok true
  | v => readMapping path v fun fields =>
    readFlag (path ++ ["forkJoin"]) true (Value.field fields "forkJoin")

def readAction (path : List String) (v : Value) : Checked ActionType :=
  readMapping path v fun fields =>
    (((readName (path ++ ["type"]) (Value.field fields "type")).map ActionType.mk).and
      (readFlag (path ++ ["requiresEndpoints"]) false (Value.field fields "requiresEndpoints"))).and
      (readFlag (path ++ ["supportsConfiguration"]) false (Value.field fields "supportsConfiguration"))

/-- Action types, counted from the given index on. -/
def readActionItems (path : List String) (index : Nat) : List Value → Checked (List ActionType)
  | [] => .ok []
  | v :: rest =>
    ((readAction (path ++ [toString index]) v).map List.cons).and (readActionItems path (index + 1) rest)

/-- The action types that a site adds. -/
def readActions (path : List String) : Value → Checked (List ActionType)
  | .absent => .ok []
  | .list items => readActionItems path 0 items
  | v => refuse path .list v

def readLevel (path : List String) (v : Value) : Checked LogLevel :=
  match v with
  | .text s =>
    match LogLevel.ofText? s with
    | some level => .ok level
    | none => .fail path (.unknownLevel s)
  | v =>
    match kindOf? v with
    | none => .ok .info
    | some received => .fail path (.levelOfKind received)

def readSite (v : Value) : Checked SiteConfig :=
  readMapping [] v fun fields =>
    ((((readDefaults ["defaults"] (Value.field fields "defaults")).map
        fun (endpoints, configuration) checksForkJoin actions logLevel =>
          { endpoints, configuration, checksForkJoin, actions, logLevel : SiteConfig }).and
      (readValidation ["validation"] (Value.field fields "validation"))).and
      (readActions ["actions"] (Value.field fields "actions"))).and
      (readLevel ["logLevel"] (Value.field fields "logLevel"))

/-- The issues of types that were declared before, counted from the given index on. -/
def repeatIssues (seen : List String) (index : Nat) : List ActionType → List Issue
  | [] => []
  | t :: rest =>
    (if t.type ∈ seen then [⟨["actions", toString index, "type"], .repeatedAction t.type⟩] else []) ++
      repeatIssues (t.type :: seen) (index + 1) rest

end Site

namespace SiteConfig
open Site

def ofValue (v : Value) : Except ConfigFault SiteConfig :=
  match readSite v with
  | ⟨none, issues⟩ => .error (.invalid issues)
  | ⟨some site, issues⟩ =>
    match issues ++ repeatIssues [] 0 site.actions with
    | [] => .ok site
    | issues => .error (.invalid issues)

def actionValue (t : ActionType) : Value :=
  .mapping
    [("type", .text t.type), ("requiresEndpoints", .bool t.requiresEndpoints),
      ("supportsConfiguration", .bool t.supportsConfiguration)]

/-- A field that is there only if it has a value. -/
def optionalField (key : String) (value : Option String) : List (String × Value) :=
  value.toList.map fun s => (key, .text s)

def toValue (c : SiteConfig) : Value :=
  .mapping
    [("defaults", .mapping
        (optionalField "nameNode" c.endpoints.nameNode ++
          optionalField "jobTracker" c.endpoints.jobTracker ++
          [("configuration", .mapping (c.configuration.entries.map fun e => (e.1, .text e.2)))])),
      ("validation", .mapping [("forkJoin", .bool c.checksForkJoin)]),
      ("actions", .list (c.actions.map actionValue)),
      ("logLevel", .text c.logLevel.text)]

end SiteConfig
end WorkflowCompiler
