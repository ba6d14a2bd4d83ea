import WorkflowCompiler.ActionType
import WorkflowCompiler.Graph.NodeName
import WorkflowCompiler.Graph.Unvisited
import WorkflowCompiler.Markup.Document

/-!
# The structure of a graph

A depth-first walk from the start node. It follows every transition of every node
it enters, except those of end and kill nodes, and enters each node once. It
refuses transitions that lead nowhere, cycles, illegal names and actions of types
that do not exist, and reports the forks and joins it met.
-/
namespace WorkflowCompiler

/-- What the walk found: the forks and joins that can be reached, in the order in which the walk
    met them, and how many nodes it entered. -/
structure StructureReport where
  forks : List String := []
  joins : List String := []
  visitedCount : Nat := 0
deriving DecidableEq, Repr, Inhabited

namespace Structure

/-- A node that is being walked, with the transitions that are left to follow. -/
structure Frame where
  node : Node
  rest : List String
deriving DecidableEq, Repr

structure Walk where
  /-- The nodes from the current one back to the start. -/
  stack : List Frame
  /-- The names of the nodes that have been walked to the end. -/
  done : List String
  report : StructureReport
deriving DecidableEq, Repr

/-- The names of the nodes that are being walked, innermost first. -/
def Walk.openNames (w : Walk) : List String := w.stack.map fun f => f.node.name

/-- The type of an action: the name of the element that it runs. -/
def actionType (node : String) (spec : ActionSpec) : Except Fault String :=
  match Markup.parse spec.conf with
  | .ok e => .ok e.name
  | .error cause => .error (.unreadableAction node cause)

/-- Refuses an action whose type does not exist. -/
def checkAction (r : Registry) (node : String) (spec : ActionSpec) : Except Fault Unit :=
  match actionType node spec with
  | .error fault => .error fault
  | .ok type => if r.supports type then .ok () else .error (.unsupportedActionOf node type)

/-- Refuses an illegal name; the start node may have any. -/
def checkName (n : Node) : Except Fault Unit :=
  if n.kind = .start then .ok () else checkNodeName n.name

/-- Refuses a node that must not be entered. -/
def checkNode (r : Registry) (n : Node) : Except Fault Unit :=
  match checkName n with
  | .error fault => .error fault
  | .ok () =>
    match n.body with
    | .action _ _ spec => checkAction r n.name spec
    | _ => .ok ()

def StructureReport.addNode (report : StructureReport) (n : Node) : StructureReport :=
  { forks := if n.kind = .fork then report.forks ++ [n.name] else report.forks
    joins := if n.kind = .join then report.joins ++ [n.name] else report.joins
    visitedCount := report.visitedCount + 1 }

/-- Whether a walk ends at a node, whatever its transitions. -/
def isTerminal (n : Node) : Bool := n.kind == .finish || n.kind == .kill

/-- The cycle that a transition to an open node closes: from that node on, and back to it. -/
def cycleAt (openNames : List String) (name : String) : List String :=
  openNames.reverse.dropWhile (· != name) ++ [name]

def Walk.enter (w : Walk) (n : Node) : Walk :=
  if isTerminal n then
    { stack := w.stack, done := n.name :: w.done, report := StructureReport.addNode w.report n }
  else
    { stack := ⟨n, n.transitions⟩ :: w.stack, done := w.done,
      report := StructureReport.addNode w.report n }

/-- How many transitions are left to follow, and frames to close. -/
def pending (stack : List Frame) : Nat := stack.foldr (fun f n => f.rest.length + 1 + n) 0

def Walk.seen (w : Walk) : List String := w.openNames ++ w.done

theorem unvisited_enter_lt {g : Graph} {w : Walk} {n : Node} (mem : n ∈ g.nodes)
    (fresh : n.name ∉ w.seen) : g.unvisited (w.enter n).seen < g.unvisited w.seen := by
  have same : g.unvisited (w.enter n).seen = g.unvisited (n.name :: w.seen) := by
    apply Graph.unvisited_congr
    intro x
    unfold Walk.enter Walk.seen Walk.openNames
    split
    · simp only [List.mem_append, List.mem_cons]
      grind
    · simp
  rw [same]
  exact Graph.unvisited_cons_lt mem fresh

/-- Walks until the stack is empty. -/
def walk (g : Graph) (r : Registry) (w : Walk) : Except Fault StructureReport :=
  match _hs : w.stack with
  | [] => .ok w.report
  | ⟨n, []⟩ :: below => walk g r { w with stack := below, done := n.name :: w.done }
  | ⟨n, t :: rest⟩ :: below =>
    match _hf : g.find? t with
    | none => .error (.danglingTransition (some n.name) (some t))
    | some target =>
      if _ho : target.name ∈ w.openNames then
        .error (.cycleClosing target.name (cycleAt w.openNames target.name))
      else if _hd : target.name ∈ w.done then walk g r { w with stack := ⟨n, rest⟩ :: below }
      else
        match checkNode r target with
        | .error fault => .error fault
        | .ok () => walk g r (Walk.enter { w with stack := ⟨n, rest⟩ :: below } target)
termination_by (g.unvisited w.seen, pending w.stack)
decreasing_by
  · have same : g.unvisited (Walk.seen { w with stack := below, done := n.name :: w.done }) =
        g.unvisited w.seen := by
      apply Graph.unvisited_congr
      intro x
      unfold Walk.seen Walk.openNames
      rw [_hs]
      simp only [List.map_cons, List.mem_append, List.mem_cons]
      grind
    rw [same]
    apply Prod.Lex.right
    simp [_hs, pending]
  · have same : g.unvisited (Walk.seen { w with stack := ⟨n, rest⟩ :: below }) = g.unvisited w.seen := by
      unfold Walk.seen Walk.openNames
      rw [_hs]
      rfl
    rw [same]
    apply Prod.Lex.right
    simp [_hs, pending]
  · apply Prod.Lex.left
    have same : Walk.seen { w with stack := ⟨n, rest⟩ :: below } = w.seen := by
      unfold Walk.seen Walk.openNames
      rw [_hs]
      rfl
    rw [← same]
    apply unvisited_enter_lt (Graph.mem_of_find? _hf)
    rw [same]
    unfold Walk.seen
    rw [List.mem_append, not_or]
    exact ⟨_ho, _hd⟩

end Structure

/-- Walks a graph from its start node. -/
def Graph.checkStructure (g : Graph) (r : Registry) : Except Fault StructureReport :=
  match g.start with
  | .error fault => .error fault
  | .ok start =>
    match Structure.checkNode r start with
    | .error fault => .error fault
    | .ok () => Structure.walk g r (Structure.Walk.enter ⟨[], [], {}⟩ start)

end WorkflowCompiler
