/-!
# Nodes

A node has a name and is of one of seven kinds. Its transitions are the names of
the nodes it leads to; an action always has two, one taken when it succeeds and
one taken when it fails.
-/
namespace WorkflowCompiler

/-- The kinds of nodes. -/
inductive NodeKind
  | start | finish | kill | action | decision | fork | join
deriving DecidableEq, Repr

def NodeKind.text : NodeKind → String
  | .start => "start"
  | .finish => "end"
  | .kill => "kill"
  | .action => "action"
  | .decision => "decision"
  | .fork => "fork"
  | .join => "join"

/-- What an action runs, and how often it is tried again. -/
structure ActionSpec where
  /-- The text of the element that says what to run, with all that it inherits. -/
  conf : String
  credential : Option String := none
  retryMax : Option String := none
  retryInterval : Option String := none
deriving DecidableEq, Repr

/-- What a node is, with the names of the nodes it leads to. -/
inductive NodeBody
  | start (targets : List String)
  | finish (targets : List String)
  | kill (message : Option String) (targets : List String)
  | action (ok error : String) (spec : ActionSpec)
  /-- The text of a switch is kept, for the engine that runs the workflow to evaluate. -/
  | decision (switch : String) (targets : List String)
  | fork (targets : List String)
  | join (targets : List String)
deriving DecidableEq, Repr

structure Node where
  name : String
  body : NodeBody
deriving DecidableEq, Repr

namespace Node

def kind (n : Node) : NodeKind :=
  match n.body with
  | .start _ => .start
  | .finish _ => .finish
  | .kill .. => .kill
  | .action .. => .action
  | .decision .. => .decision
  | .fork _ => .fork
  | .join _ => .join

/-- The names of the nodes a node leads to, in order. -/
def transitions (n : Node) : List String :=
  match n.body with
  | .start targets => targets
  | .finish targets => targets
  | .kill _ targets => targets
  | .action ok error _ => [ok, error]
  | .decision _ targets => targets
  | .fork targets => targets
  | .join targets => targets

end Node
end WorkflowCompiler
