import WorkflowCompiler.Definition.Expression
import WorkflowCompiler.Definition.Inheritance
import WorkflowCompiler.Globals.Blob
import WorkflowCompiler.Graph.Basic
import WorkflowCompiler.Markup.Printer

/-!
# Building graphs

Every element of a definition that declares a node becomes a node of the graph.
The elements are read in order: a global section sets the defaults for the
actions after it, and an action that runs another workflow may hand the defaults
on in the job configuration, once for a build.
-/
namespace WorkflowCompiler.Definition
open Markup (Element)

/-- The entry of a job configuration that hands global defaults from workflow to workflow. -/
def globalsKey : String := "workflow.global.conf"

/-- What a build depends on besides the definition. -/
structure Builder where
  inheritance : Inheritance
  /-- The lowest layer of the configuration of actions. -/
  layer : Option (Dict String)

structure BuildState where
  graph : Graph
  /-- The job configuration. -/
  conf : Dict String
  /-- The defaults for the actions that follow. -/
  globals : Option GlobalDefaults
  /-- Whether defaults have been handed on. -/
  propagated : Bool

/-! ## Nodes without a state -/

def startNode (e : Element) : Except Fault Node :=
  (requireAttribute e Key.target).map fun target => ⟨startName, .start [target]⟩

def finishNode (e : Element) : Except Fault Node :=
  (requireAttribute e Key.name).map fun name => ⟨name, .finish []⟩

def killNode (e : Element) : Except Fault Node :=
  (requireAttribute e Key.name).map fun name => ⟨name, .kill (e.childText? Tag.message) []⟩

/-- A fork node, which leads to where its paths start. -/
def forkNode (e : Element) : Except Fault Node := do
  let name ← requireAttribute e Key.name
  let targets ← (e.childrenNamed Tag.forkPath).mapM fun p => requireAttribute p Key.start
  pure ⟨name, .fork targets⟩

def joinNode (e : Element) : Except Fault Node := do
  let name ← requireAttribute e Key.name
  let target ← requireAttribute e Key.target
  pure ⟨name, .join [target]⟩

def writeElement (e : Element) : Except Fault String :=
  match Markup.serialize e with
  | .ok text => .ok text
  | .error cause => .error (.unwritable cause)

/-- A decision node, which leads to where its cases lead, and its default last. -/
def decisionNode (e : Element) : Except Fault Node := do
  let name ← requireAttribute e Key.name
  match e.child? Tag.switch with
  | none => .error (.incompleteDecision name)
  | some switch =>
    match switch.child? Tag.switchDefault with
    | none => .error (.incompleteDecision name)
    | some last =>
      let cases ← (switch.childrenNamed Tag.switchCase).mapM fun c => requireAttribute c Key.target
      let otherwise ← requireAttribute last Key.target
      let text ← writeElement switch
      pure ⟨name, .decision text (cases ++ [otherwise])⟩

/-! ## Actions -/

/-- What has been read of an action. -/
structure ActionDraft where
  okTarget : Option String := none
  errorTarget : Option String := none
  /-- The element that says what to run, with all that it inherits. -/
  conf : Option Element := none

/-- Whether an element hands the global defaults on to another workflow. -/
def propagates (e : Element) : Bool :=
  e.name == Tag.subWorkflow && (e.child? Tag.propagateConfiguration).isSome

/-- Hands the defaults on, if there are some and that was not done before. -/
def propagate (s : BuildState) (e : Element) : BuildState :=
  match s.globals with
  | none => s
  | some g =>
    if !s.propagated && propagates e then
      { s with conf := s.conf.put globalsKey g.encode, propagated := true }
    else s

/-- Reads the children of an action. -/
def readAction (b : Builder) (node : String) (s : BuildState) (draft : ActionDraft) :
    List Element → Attempt BuildState ActionDraft
  | [] => .succeed s draft
  | c :: rest =>
    if c.name = Tag.ok then
      match requireAttribute c Key.target with
      | .error fault => .fail s fault
      | .ok target => readAction b node s { draft with okTarget := some target } rest
    else if c.name = Tag.error then
      match requireAttribute c Key.target with
      | .error fault => .fail s fault
      | .ok target => readAction b node s { draft with errorTarget := some target } rest
    else if c.name = Tag.slaInfo ∨ c.name = Tag.credentials then readAction b node s draft rest
    else
      let s := propagate s c
      let resolved := inherit b.inheritance c s.globals b.layer (some node)
      match resolved.result with
      | .error fault => .fail s fault
      | .ok () => readAction b node s { draft with conf := some resolved.state } rest

/-- The value of a retry attribute; an empty one counts as none. -/
def retryValue (e : Element) (key node : String) (conf : Dict String) :
    Except Fault (Option String) :=
  match e.attribute? key with
  | none => .ok none
  | some raw =>
    if raw = "" then .ok none
    else
      match resolveExpression raw conf with
      | .ok value => .ok (some value)
      | .error cause => .error (.invalidRetry node key cause)

/-- The node of an action whose children have been read. -/
def finishAction (e : Element) (node : String) (draft : ActionDraft) (conf : Dict String) :
    Except Fault Node := do
  match draft.conf with
  | none => .error (.actionWithoutType node)
  | some actionConf =>
    match draft.okTarget, draft.errorTarget with
    | some ok, some error =>
      let text ← writeElement actionConf
      let retryMax ← retryValue e Key.retryMax node conf
      let retryInterval ← retryValue e Key.retryInterval node conf
      pure ⟨node, .action ok error
        { conf := text, credential := e.attribute? Key.credential,
          retryMax, retryInterval }⟩
    | _, _ => .error (.actionWithoutTransitions node)

def actionNode (b : Builder) (s : BuildState) (e : Element) : Attempt BuildState Node :=
  match requireAttribute e Key.name with
  | .error fault => .fail s fault
  | .ok node =>
    (readAction b node s {} e.children).andThen fun s draft =>
      .ofExcept s (finishAction e node draft s.conf)

/-! ## Definitions -/

/-- Sets the defaults for the actions that follow, filled in from the workflow that started
    this one. -/
def applyGlobals (b : Builder) (s : BuildState) (e : Element) : Except Fault BuildState := do
  let filled ← match s.conf.get? globalsKey with
    | none => .ok e
    | some blob =>
      let inherited ← GlobalDefaults.decode blob
      let filled := inherit b.inheritance e (some inherited) none none
      filled.result.map fun _ => filled.state
  let globals ← GlobalDefaults.ofSection filled
  pure { s with globals := some globals }

/-- Adds a node to the graph. -/
def addNode (s : BuildState) (n : Except Fault Node) : Attempt BuildState Unit :=
  match n with
  | .error fault => .fail s fault
  | .ok n =>
    match s.graph.add n with
    | .error fault => .fail s fault
    | .ok graph => .succeed { s with graph := graph } ()

/-- Elements of a definition that the graph does not hold. -/
def isPassedOver (tag : String) : Bool :=
  tag == Tag.slaInfo || tag == Tag.credentials || tag == Tag.parameters

/-- Reads one element of a definition. -/
def buildElement (b : Builder) (s : BuildState) (e : Element) : Attempt BuildState Unit :=
  if e.name = Tag.start then addNode s (startNode e)
  else if e.name = Tag.finish then addNode s (finishNode e)
  else if e.name = Tag.kill then addNode s (killNode e)
  else if e.name = Tag.fork then addNode s (forkNode e)
  else if e.name = Tag.join then addNode s (joinNode e)
  else if e.name = Tag.decision then addNode s (decisionNode e)
  else if e.name = Tag.action then (actionNode b s e).andThen fun s n => addNode s (.ok n)
  else if e.name = Tag.globals then
    match applyGlobals b s e with
    | .error fault => .fail s fault
    | .ok s => .succeed s ()
  else if isPassedOver e.name then .succeed s ()
  else .fail s (.unknownElement e.name)

/-- Reads elements of a definition in order. -/
def buildElements (b : Builder) (s : BuildState) : List Element → Attempt BuildState Unit
  | [] => .succeed s ()
  | e :: rest => (buildElement b s e).andThen fun s _ => buildElements b s rest

/-- The defaults that a job configuration hands down. -/
def inheritedGlobals (conf : Dict String) : Except Fault (Option GlobalDefaults) :=
  match conf.get? globalsKey with
  | none => .ok none
  | some blob => (GlobalDefaults.decode blob).map some

/-- The graph of a definition, and the job configuration after the build. -/
def build (b : Builder) (root : Element) (conf : Dict String) : Attempt (Dict String) Graph :=
  match requireAttribute root Key.name with
  | .error fault => .fail conf fault
  | .ok name =>
    match inheritedGlobals conf with
    | .error fault => .fail conf fault
    | .ok globals =>
      let built := buildElements b ⟨.empty name, conf, globals, false⟩ root.children
      match built.result with
      | .error fault => .fail built.state.conf fault
      | .ok () =>
        if built.state.graph.start?.isSome then .succeed built.state.conf built.state.graph
        else .fail built.state.conf (.noStartElement name)

end WorkflowCompiler.Definition
