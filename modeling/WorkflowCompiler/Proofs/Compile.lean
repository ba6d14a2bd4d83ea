import Mathlib.Data.Set.Card
import WorkflowCompiler.Compiler
import WorkflowCompiler.Proofs.Definition.Build
import WorkflowCompiler.Proofs.Definition.Schema
import WorkflowCompiler.Proofs.Structure

/-!
What holds of a graph that was compiled. Its parts come from the stages of the
compiler (`Compiler.Stages`): the schema gives every fork a path, the builder gives
every other node that goes on a transition, and the structural walk shows that
transitions lead somewhere and never back. So a run of the workflow cannot get
stuck, and it ends before it has seen all nodes twice (`Compiler.runs_end`).
-/
namespace WorkflowCompiler
open Definition

/-- What a compilation that succeeds has done. -/
structure Compiler.Stages (c : Compiler) (definition : String) (conf : Dict String) (layer : Option (Dict String))
    (compiled : Compiled) (root : Markup.Element) (settled after : Dict String) (g : Graph) : Prop where
  schema : c.checksSchema = true → validateSchema definition = .ok ()
  parsed : Markup.parse definition = .ok root
  verified : verifyParameters root conf = .succeed settled ()
  built : build (c.builder layer) root settled = .succeed after g
  checked : g.checkStructure c.registry = .ok compiled.structureReport
  forkJoin : c.checksForkJoin after = true → g.checkForkJoin compiled.structureReport = .ok ()
  compiled : compiled.graph = g.sealNodes

theorem Except.eq_ok_of_toOption {ε α : Type} {x : Except ε α} {a : α} (present : x.toOption = some a) : x = .ok a := by
  cases x with
  | error fault => cases present
  | ok b =>
    cases present
    rfl

namespace Compiler
variable {c : Compiler} {definition : String} {conf : Dict String} {layer : Option (Dict String)} {compiled : Compiled}
  {s t : Session}

theorem onConf_eq_succeed {α : Type} {a : Attempt (Dict String) α} {x : α} (done : onConf s a = .succeed t x) :
    a = .succeed t.conf x := by
  obtain ⟨conf, result⟩ := a
  cases done
  rfl

theorem checkForm_eq_succeed (done : c.checkForm definition s = .succeed t ()) :
    t.conf = s.conf ∧ (c.checksSchema = true → validateSchema definition = .ok ()) := by
  unfold checkForm at done
  split at done
  · obtain ⟨mid, _, checked, told⟩ := Attempt.andThen_eq_succeed done
    cases told
    obtain ⟨rfl, valid⟩ := Attempt.mk.inj checked
    exact ⟨rfl, fun _ => valid⟩
  · rename_i unchecked
    cases done
    exact ⟨rfl, fun checks => absurd checks unchecked⟩

theorem readDefinition_eq_succeed {root : Markup.Element} (done : readDefinition definition s = .succeed t root) :
    t = s ∧ Markup.parse definition = .ok root := by
  unfold readDefinition at done
  split at done
  · rename_i parsed
    cases done
    exact ⟨rfl, parsed⟩
  · cases done

theorem checkGraph_eq_succeed {g : Graph} {report : StructureReport} (done : c.checkGraph g s = .succeed t report) :
    g.checkStructure c.registry = .ok report ∧ (c.checksForkJoin s.conf = true → g.checkForkJoin report = .ok ()) := by
  obtain ⟨mid, found, checked, later⟩ := Attempt.andThen_eq_succeed done
  obtain ⟨rfl, reported⟩ := Attempt.mk.inj checked
  dsimp only at later
  split at later
  · obtain ⟨last, _, joined, later⟩ := Attempt.andThen_eq_succeed later
    cases later
    exact ⟨reported, fun _ => (Attempt.mk.inj joined).2⟩
  · rename_i unchecked
    cases later
    exact ⟨reported, fun checks => absurd checks unchecked⟩

theorem stages_of_compile (done : (c.compile definition conf layer).result = .ok compiled) :
    ∃ root settled after g, c.Stages definition conf layer compiled root settled after g := by
  have done : c.compile definition conf layer = .succeed (c.compile definition conf layer).state compiled := by
    rw [Attempt.succeed, ← done]
  obtain ⟨s₁, _, form, done⟩ := Attempt.andThen_eq_succeed done
  obtain ⟨s₂, root, read, done⟩ := Attempt.andThen_eq_succeed done
  obtain ⟨s₃, _, verified, done⟩ := Attempt.andThen_eq_succeed done
  obtain ⟨s₄, g, built, done⟩ := Attempt.andThen_eq_succeed done
  obtain ⟨s₅, report, checked, done⟩ := Attempt.andThen_eq_succeed done
  obtain ⟨_, same⟩ := Attempt.mk.inj done
  cases same
  obtain ⟨same, schema⟩ := checkForm_eq_succeed form
  obtain ⟨checked, forkJoin⟩ := checkGraph_eq_succeed checked
  obtain ⟨rfl, parsed⟩ := readDefinition_eq_succeed read
  have verified := onConf_eq_succeed verified
  rw [same] at verified
  exact ⟨root, s₃.conf, s₄.conf, g, schema, parsed, verified, onConf_eq_succeed built, checked, forkJoin, rfl⟩

theorem checkForm_succeeds (schema : c.checksSchema = true → validateSchema definition = .ok ()) (s : Session) :
    ∃ t, c.checkForm definition s = .succeed t () ∧ t.conf = s.conf := by
  unfold checkForm
  split
  · rename_i checks
    rw [schema checks]
    exact ⟨_, rfl, rfl⟩
  · exact ⟨s, rfl, rfl⟩

theorem checkGraph_succeeds {g : Graph} {report : StructureReport} (checked : g.checkStructure c.registry = .ok report)
    (forkJoin : c.checksForkJoin s.conf = true → g.checkForkJoin report = .ok ()) :
    ∃ t, c.checkGraph g s = .succeed t report ∧ t.conf = s.conf := by
  have opened : c.checkGraph g s =
      if c.checksForkJoin s.conf = true then
        (Attempt.ofExcept (tell s (.structureValid report)) (g.checkForkJoin report)).andThen fun s _ =>
          .succeed (tell s .forkJoinPassed) report
      else .succeed (tell (tell s (.structureValid report)) .forkJoinSkipped) report := by
    rw [checkGraph, checked]
    rfl
  by_cases checks : c.checksForkJoin s.conf = true
  · rw [opened, if_pos checks, forkJoin checks]
    exact ⟨_, rfl, rfl⟩
  · rw [opened, if_neg checks]
    exact ⟨_, rfl, rfl⟩

/-- The stages of a compilation lead to its result, and to the job configuration that the build leaves. -/
theorem Stages.compile_eq {root : Markup.Element} {settled after : Dict String} {g : Graph}
    (stages : c.Stages definition conf layer compiled root settled after g) :
    ∃ t, c.compile definition conf layer = .succeed t compiled ∧ t.conf = after := by
  obtain ⟨s, formed, same⟩ := checkForm_succeeds stages.schema ⟨conf, []⟩
  have read : readDefinition definition s = .succeed s root := by rw [readDefinition, stages.parsed]
  have verified : onConf s (verifyParameters root s.conf) = .succeed { s with conf := settled } () := by
    rw [same, stages.verified]
    rfl
  have built : onConf { s with conf := settled } (build (c.builder layer) root settled) =
      .succeed { s with conf := after } g := by
    rw [stages.built]
    rfl
  obtain ⟨t, checked, kept⟩ := checkGraph_succeeds (s := tell { s with conf := after } (.built g.name g.size))
    stages.checked stages.forkJoin
  refine ⟨t, ?_, kept⟩
  simp only [Compiler.compile, formed, Attempt.andThen_succeed, read, verified, built, checked]
  rw [← stages.compiled]

theorem Stages.compile {root : Markup.Element} {settled after : Dict String} {g : Graph}
    (stages : c.Stages definition conf layer compiled root settled after g) :
    (c.compile definition conf layer).result = .ok compiled := by
  obtain ⟨t, done, _⟩ := stages.compile_eq
  rw [done]
  rfl

theorem Stages.conf_after {root : Markup.Element} {settled after : Dict String} {g : Graph}
    (stages : c.Stages definition conf layer compiled root settled after g) : (c.compile definition conf layer).state.conf = after := by
  obtain ⟨t, done, kept⟩ := stages.compile_eq
  rw [done]
  exact kept

end Compiler

/-! ### Runs -/

namespace Graph

/-- The nodes that a run has come to after some steps, the last one first, where `choose` picks the
    transitions. A run stays where it ends; it gets stuck where a node has no transition or the
    transition leads nowhere. -/
def wander (g : Graph) (choose : List Node → Nat) : Nat → Option (List Node)
  | 0 => g.start?.map fun s => [s]
  | k + 1 => (g.wander choose k).bind fun
    | [] => none
    | n :: p =>
      if Structure.isTerminal n then some (n :: p)
      else (n.transitions[choose (n :: p) % n.transitions.length]?.bind g.find?).map fun m => m :: n :: p

variable {g : Graph} {r : Registry}

theorem wander_sealNodes (g : Graph) (choose : List Node → Nat) (k : Nat) :
    g.sealNodes.wander choose k = g.wander choose k := by
  induction k with
  | zero => rfl
  | succ k ih =>
    rw [wander, ih]
    rfl

/-- A trail has no more nodes than can be reached. -/
theorem WellFormed.length_le (wellFormed : g.WellFormed r) {p : List Node} (trail : g.Trail g.Leads p) :
    p.length ≤ Set.ncard {n | g.Reachable n} := by
  have finite : {n | g.Reachable n}.Finite :=
    (List.finite_toSet g.nodes).subset fun n reachable => Reachable.mem reachable
  have inside : (p.toFinset : Set Node) ⊆ {n | g.Reachable n} := by
    intro n member
    exact trail.reachable n (List.mem_toFinset.mp member)
  rw [← List.toFinset_card_of_nodup (trail.nodup wellFormed.acyclic), ← Set.ncard_coe_finset]
  exact Set.ncard_le_ncard inside finite

/-- From a node that is not the last, every choice leads on to an existing node. -/
theorem WellFormed.onward (wellFormed : g.WellFormed r) {n : Node} (reachable : g.Reachable n)
    (going : Structure.isTerminal n = false) (some : n.transitions ≠ []) (choice : Nat) :
    ∃ m, n.transitions[choice % n.transitions.length]?.bind g.find? = .some m ∧ g.Leads n m := by
  have inside : choice % n.transitions.length < n.transitions.length :=
    Nat.mod_lt _ (List.length_pos_iff.mpr some)
  obtain ⟨m, found⟩ := wellFormed.resolved n reachable going _ (List.getElem_mem inside)
  refine ⟨m, ?_, going, _, List.getElem_mem inside, found⟩
  rw [List.getElem?_eq_getElem inside]
  exact found

/-- A run takes a step, unless it has ended. -/
theorem WellFormed.wander (wellFormed : g.WellFormed r) {s : Node} (first : g.start? = some s)
    (some : ∀ n, g.Reachable n → Structure.isTerminal n = false → n.transitions ≠ []) (choose : List Node → Nat) (k : Nat) :
    ∃ n p, g.wander choose k = .some (n :: p) ∧ g.Trail g.Leads (n :: p) ∧
      (Structure.isTerminal n = true ∨ p.length = k) := by
  induction k with
  | zero => exact ⟨s, [], by simp [Graph.wander, first], .start first, .inr rfl⟩
  | succ k ih =>
    obtain ⟨n, p, here, trail, position⟩ := ih
    cases ends : Structure.isTerminal n with
    | true => exact ⟨n, p, by simp [Graph.wander, here, ends], trail, .inl ends⟩
    | false =>
      have reachable := trail.reachable n (List.mem_cons_self ..)
      obtain ⟨m, leads, onward⟩ := wellFormed.onward reachable ends (some n reachable ends) (choose (n :: p))
      have steps : p.length = k := position.resolve_left (by simp [ends])
      refine ⟨m, n :: p, ?_, .next trail onward, .inr (by rw [List.length_cons, steps])⟩
      simp only [Graph.wander, here, Option.bind_some, ends, leads, Option.map_some, Bool.false_eq_true, if_false]

/-- A run ends before it has taken as many steps as there are nodes to reach. -/
theorem WellFormed.wander_ends (wellFormed : g.WellFormed r) {s : Node} (first : g.start? = some s)
    (some : ∀ n, g.Reachable n → Structure.isTerminal n = false → n.transitions ≠ []) (choose : List Node → Nat) :
    ∃ n p, g.wander choose (Set.ncard {n | g.Reachable n} - 1) = .some (n :: p) ∧ Structure.isTerminal n = true := by
  obtain ⟨n, p, here, trail, position⟩ := wellFormed.wander first some choose (Set.ncard {n | g.Reachable n} - 1)
  refine ⟨n, p, here, ?_⟩
  cases ends : Structure.isTerminal n with
  | true => rfl
  | false =>
    -- A trail over all nodes that can be reached would go on to one more.
    have reachable := trail.reachable n (List.mem_cons_self ..)
    obtain ⟨m, _, onward⟩ := wellFormed.onward reachable ends (some n reachable ends) 0
    have longer := wellFormed.length_le (.next trail onward)
    have steps := position.resolve_left (by simp [ends])
    simp only [List.length_cons] at longer
    omega

end Graph

namespace Definition

theorem length_mapM {α β : Type} {f : α → Except Fault β} {items : List α} {results : List β}
    (done : items.mapM f = .ok results) : results.length = items.length := by
  induction items generalizing results with
  | nil =>
    cases done
    rfl
  | cons x items ih =>
    rw [List.mapM_cons] at done
    obtain ⟨y, _, done⟩ := Except.bind_eq_ok done
    obtain ⟨rest, others, done⟩ := Except.bind_eq_ok done
    cases done
    rw [List.length_cons, List.length_cons, ih others]

/-- The schema and the builder give every node a way on. -/
theorem transitions_ne_nil {b : Builder} {s : BuildState} {e : Markup.Element} {n : Node} {shape : Shape}
    (known : Shape.ofTag? e.name = some shape) (fits : shape.Fits e) (declares : Declares b s e n)
    (going : Structure.isTerminal n = false) : n.transitions ≠ [] := by
  rcases declares with plain | ⟨_, t, read⟩
  · cases plainNode_of_plainNode? plain with
    | start => simp [Node.transitions]
    | finish => simp [Structure.isTerminal, Node.kind] at going
    | kill => simp [Structure.isTerminal, Node.kind] at going
    | fork tag named paths =>
      rw [tag] at known
      cases known
      obtain ⟨_, ⟨_, least, _⟩, _⟩ := fits
      have many := length_mapM paths
      intro empty
      simp only [Node.transitions] at empty
      rw [empty] at many
      exact absurd least (by rw [← many]; decide)
    | join => simp [Node.transitions]
    | decision => simp [Node.transitions]
  · obtain ⟨_, _, _, c, filled, text, ok, error, spec, _, _, _, body, _⟩ := actionNode_eq_succeed read
    simp [Node.transitions, body]

end Definition

/-- A run of a compiled workflow never gets stuck and stands on an end or kill node at last, after at
    most as many steps as there are other nodes. -/
theorem Compiler.runs_end {c : Compiler} (schema : c.checksSchema = true) {definition : String} {conf : Dict String}
    {layer : Option (Dict String)} {compiled : Compiled}
    (done : (c.compile definition conf layer).result = .ok compiled) (choose : List Node → Nat) :
    ∃ n p, compiled.graph.wander choose (compiled.structureReport.visitedCount - 1) = some (n :: p) ∧
      (n.kind = .finish ∨ n.kind = .kill) := by
  obtain ⟨root, settled, after, g, stages⟩ := stages_of_compile done
  obtain ⟨root', parsed, conforms⟩ := (validateSchema_ok_iff definition).mp (stages.schema schema)
  rw [stages.parsed] at parsed
  cases parsed
  obtain ⟨s, first, explored⟩ := Graph.explored_of_checkStructure stages.checked
  obtain ⟨name, globals, t, _, _, builds, _, rfl, _⟩ := build_eq_succeed stages.built
  have onward (n : Node) (reachable : t.graph.Reachable n) (going : Structure.isTerminal n = false) : n.transitions ≠ [] := by
    rcases builds.declared reachable.mem with none | ⟨before, e, later, mid, split, _, declares⟩
    · cases none
    · obtain ⟨shape, known, fits⟩ := conforms.children e (by rw [split]; simp)
      exact transitions_ne_nil known fits declares going
  obtain ⟨n, p, here, ends⟩ := (explored.wellFormed first).wander_ends first onward choose
  rw [← (explored.report first).1] at here
  refine ⟨n, p, ?_, by simpa [Structure.isTerminal] using ends⟩
  rw [stages.compiled, Graph.wander_sealNodes]
  exact here

/-- A graph of a start node, an action and an end node is well formed if its nodes may be entered. -/
theorem checkStructure_oneAction {g : Graph} {r : Registry} {text : String}
    (nodes : g.nodes = [⟨startName, .start ["x"]⟩, ⟨"x", .action "y" "y" { conf := text }⟩, ⟨"y", .finish []⟩])
    (passes : ∀ n ∈ g.nodes, Structure.checkNode r n = .ok ()) : g.checkStructure r = .ok ⟨[], [], 3⟩ := by
  rw [nodes] at passes
  simp only [startName, List.forall_mem_cons] at passes
  simp [Graph.checkStructure, Graph.start, Graph.start?, nodes, Node.kind, passes, Structure.walk_nil,
    Structure.walk_leave, Structure.walk_follow, Structure.Walk.enter, Structure.isTerminal, Graph.find?,
    Structure.StructureReport.addNode, Node.transitions, startName]

/-- A workflow that runs one action. -/
def oneAction : String :=
  "<workflow-app name='w'><start to='x'/><action name='x'><fs/><ok to='y'/><error to='y'/></action><end name='y'/></workflow-app>"

theorem Compiler.runs_end_oneAction : ∃ compiled,
    (compile { checksSchema := true } oneAction .empty).result = .ok compiled ∧
      ∀ choose, ∃ n p, compiled.graph.wander choose (compiled.structureReport.visitedCount - 1) = some (n :: p) ∧
        (n.kind = .finish ∨ n.kind = .kill) := by
  have built : ((Markup.parse oneAction).toOption.bind fun root =>
      if schemaIssues root = [] ∧ (root.child? Tag.parameters).isNone then
        (build (builder { checksSchema := true } none) root .empty).result.toOption.map Graph.nodes
      else none) =
    some [⟨startName, .start ["x"]⟩,
      ⟨"x", .action "y" "y" { conf := "<fs>\n  <configuration/>\n</fs>" }⟩, ⟨"y", .finish []⟩] := by
    decide +kernel
  obtain ⟨root, parsed, built⟩ := Option.bind_eq_some_iff.mp built
  have parsed := Except.eq_ok_of_toOption parsed
  split at built
  · rename_i accepted
    obtain ⟨issues, undeclared⟩ := accepted
    obtain ⟨g, result, nodes⟩ := Option.map_eq_some_iff.mp built
    have conforms : validateSchema oneAction = .ok () := by
      simp [validateSchema, parsed, checkSchema, issues]
    have verified : verifyParameters root .empty = .succeed .empty () := by
      simp [verifyParameters, Option.isNone_iff_eq_none.mp undeclared]
    have passes : ∀ n ∈ g.nodes, Structure.checkNode (Registry.withBuiltins []) n = .ok () := by
      rw [nodes]
      exact Structure.checkNode_of_isOk (by decide +kernel)
    have checked : g.checkStructure (registry { checksSchema := true }) = .ok ⟨[], [], 3⟩ :=
      checkStructure_oneAction nodes passes
    have built : build (builder { checksSchema := true } none) root .empty =
        .succeed (build (builder { checksSchema := true } none) root .empty).state g := by
      rw [Attempt.succeed, ← Except.eq_ok_of_toOption result]
    have stages : Stages { checksSchema := true } oneAction .empty none ⟨g.sealNodes, ⟨[], [], 3⟩⟩ root .empty _ g :=
      ⟨fun _ => conforms, parsed, verified, built, checked, fun _ => by simp [Graph.checkForkJoin], rfl⟩
    exact ⟨_, stages.compile, runs_end rfl stages.compile⟩
  · cases built

end WorkflowCompiler
