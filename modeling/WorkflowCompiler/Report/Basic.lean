import WorkflowCompiler.Compiler
import WorkflowCompiler.Site.Fault

/-!
# Reports

What is told about a workflow that compiles, and about one that does not, as data.
-/
namespace WorkflowCompiler

/-- What is told about a workflow that compiles. -/
structure Summary where
  name : String
  nodes : Nat
  reachable : Nat
  forks : List String
  joins : List String
deriving DecidableEq, Repr

/-- What is told about a failure. -/
structure Failure where
  code : String
  message : String
  node : Option String := none
deriving DecidableEq, Repr

/-- What is told about a node. -/
structure NodeRow where
  name : String
  kind : NodeKind
  transitions : List String
deriving DecidableEq, Repr

/-- Why a workflow could not be compiled from files. -/
inductive RunFault
  | workflow (fault : Fault)
  | config (fault : ConfigFault)
  | file (fault : FileFault)
deriving DecidableEq, Repr

namespace Report

def summary (c : Compiled) : Summary :=
  { name := c.graph.name
    nodes := c.graph.size
    reachable := c.structureReport.visitedCount
    forks := c.structureReport.forks
    joins := c.structureReport.joins }

/-- The rows of a compiled workflow's nodes. -/
def nodeRows (c : Compiled) : List NodeRow :=
  c.graph.list.map fun n => { name := n.name, kind := n.kind, transitions := n.transitions }

/-- The code of failures that have no code of their own. -/
def otherCode : String := "ERROR"

def configCode : String := "CONFIG_ERROR"

/-- The failure that anything else than a fault stands for. -/
def otherFailure (message : String) : Failure := { code := otherCode, message }

def configFailure (message : String) : Failure := { code := configCode, message }

def failure : RunFault → Failure
  | .workflow fault =>
    match fault.code? with
    | some code => { code := code.text, message := fault.message, node := fault.node? }
    | none => otherFailure fault.message
  | .config fault => configFailure fault.message
  | .file fault => otherFailure fault.message

def namesValue (names : List String) : Value := .list (names.map .text)

def countValue (n : Nat) : Value := .number (.ofNat n)

def summaryValue (s : Summary) : Value :=
  .mapping
    [("valid", .bool true), ("name", .text s.name), ("nodes", countValue s.nodes),
      ("reachable", countValue s.reachable), ("forks", namesValue s.forks), ("joins", namesValue s.joins)]

/-- A failure as a value; without a node it has no such field. -/
def failureValue (f : Failure) : Value :=
  .mapping
    [("valid", .bool false), ("code", .text f.code), ("message", .text f.message),
      ("node", Value.ofText? f.node)]

def rowValue (r : NodeRow) : Value :=
  .mapping
    [("name", .text r.name), ("kind", .text r.kind.text), ("transitions", namesValue r.transitions)]

def nodesValue (name : String) (rows : List NodeRow) : Value :=
  .mapping [("name", .text name), ("nodes", .list (rows.map rowValue))]

end Report
end WorkflowCompiler
