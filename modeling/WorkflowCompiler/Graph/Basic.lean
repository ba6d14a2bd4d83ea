import WorkflowCompiler.Fault
import WorkflowCompiler.Graph.Node

/-!
# Workflow graphs

A graph is a list of nodes with pairwise different names, in the order in which
they were added. A sealed graph takes no more nodes.
-/
namespace WorkflowCompiler

def startName : String := ":start:"

/-- A workflow with its nodes. -/
structure Graph where
  name : String
  nodes : List Node
  distinct : (nodes.map Node.name).Nodup
  isSealed : Bool := false

namespace Graph

/-- The graph without nodes. -/
def empty (name : String) : Graph := ⟨name, [], List.nodup_nil, false⟩

def find? (g : Graph) (name : String) : Option Node := g.nodes.find? fun n => n.name == name

theorem find?_eq_none_iff {g : Graph} {name : String} :
    g.find? name = none ↔ name ∉ g.nodes.map Node.name := by
  simp only [find?, List.find?_eq_none, List.mem_map, not_exists, not_and, beq_iff_eq]

theorem mem_of_find? {g : Graph} {name : String} {n : Node} (h : g.find? name = some n) : n ∈ g.nodes :=
  List.mem_of_find?_eq_some h

theorem name_of_find? {g : Graph} {name : String} {n : Node} (h : g.find? name = some n) :
    n.name = name := by
  simpa using List.find?_some h

/-- Adds a node, unless the graph is sealed or has a node of that name. -/
def add (g : Graph) (n : Node) : Except Fault Graph :=
  if g.isSealed then .error (.sealedGraph g.name n.name)
  else
    match h : g.find? n.name with
    | some _ => .error (.duplicateNode n.name)
    | none => .ok
      { name := g.name
        nodes := g.nodes ++ [n]
        distinct := by
          rw [List.map_append, List.nodup_append]
          refine ⟨g.distinct, by simp, ?_⟩
          intro a ha b hb e
          subst e
          simp only [List.map_cons, List.map_nil, List.mem_singleton] at hb
          subst hb
          exact find?_eq_none_iff.1 h ha
        isSealed := false }

/-- The start node: the last one of that kind that was added. -/
def start? (g : Graph) : Option Node := g.nodes.reverse.find? fun n => n.kind == .start

def start (g : Graph) : Except Fault Node :=
  match g.start? with
  | some n => .ok n
  | none => .error (.noStartNode g.name)

/-- How many nodes there are. -/
def size (g : Graph) : Nat := g.nodes.length

/-- The node with the name of the start node, and all nodes that are of another kind. -/
def list (g : Graph) : List Node :=
  (g.find? startName).toList ++ g.nodes.filter fun n => n.kind != .start

/-- Takes no more nodes from now on. -/
def sealNodes (g : Graph) : Graph := { g with isSealed := true }

/-- Adds nodes one after the other. -/
def addAll (g : Graph) (ns : List Node) : Except Fault Graph := ns.foldlM Graph.add g

end Graph
end WorkflowCompiler
