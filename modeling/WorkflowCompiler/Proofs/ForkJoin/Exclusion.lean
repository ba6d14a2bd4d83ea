import WorkflowCompiler.Proofs.DepthFirst
import WorkflowCompiler.Proofs.ForkJoin.Balance

/-!
Faults that the structural walk rules out. On a graph whose structure was reported,
whose start and join nodes have exactly one transition, every visit of the walk over
all paths comes to a node that is not on the path (`maintained_arriving`). So the walk
stops only for what is wrong with forks, joins or repeated nodes, and never for a
transition that leads nowhere or a cycle (`Graph.checkForkJoin_codes`).
-/
namespace WorkflowCompiler
namespace ForkJoin

variable {g : Graph} {r : Registry} {p : List Node} {s inner : State} {v : Visit} {n : Node} {visits rest : List Visit}
  {undo : Undo} {fault : Fault}

/-! ### Every visit finds a node -/

/-- With one transition out of start and join nodes, every exit names a node. -/
theorem exists_target (single : g.SingleExit) (member : n ∈ g.nodes) {exit : Option String × Bool}
    (leaves : exit ∈ exits n) : ∃ t, exit.1 = some t := by
  have one (kind : n.kind = .start ∨ n.kind = .join) : ∃ t, n.transitions.head? = some t := by
    obtain ⟨t, only⟩ := List.length_eq_one_iff.mp (single n member kind)
    exact ⟨t, by rw [only, List.head?_cons]⟩
  cases body : n.body with
  | start targets =>
    simp only [exits, body, List.mem_singleton] at leaves
    simpa [leaves, Node.transitions, body] using one (.inl (by simp [Node.kind, body]))
  | join targets =>
    simp only [exits, body, List.mem_singleton] at leaves
    simpa [leaves, Node.transitions, body] using one (.inr (by simp [Node.kind, body]))
  | action ok error spec =>
    simp only [exits, body, List.mem_cons, List.not_mem_nil, or_false] at leaves
    rcases leaves with rfl | rfl
    · exact ⟨ok, rfl⟩
    · exact ⟨error, rfl⟩
  | decision switch targets =>
    simp only [exits, body, List.mem_map] at leaves
    obtain ⟨t, _, rfl⟩ := leaves
    exact ⟨t, rfl⟩
  | fork targets =>
    simp only [exits, body, List.mem_map] at leaves
    obtain ⟨t, _, rfl⟩ := leaves
    exact ⟨t, rfl⟩
  | _ => simp [exits, body] at leaves

/-- What comes after a node of a trail is in the graph. -/
theorem arrives_of_enter (single : g.SingleExit) (wellFormed : g.WellFormed r) (trail : g.Trail g.Leads (n :: p))
    (entered : enter g s v n = .ok (visits, undo, inner)) : ∀ w ∈ visits, ∃ m, w.target.bind g.find? = some m := by
  intro w later
  obtain ⟨_, _, _, rfl⟩ := enter_cases entered
  obtain ⟨⟨name, ok⟩, leaves, rfl⟩ := List.mem_map.mp later
  obtain ⟨t, rfl⟩ := exists_target single (trail.mem n (List.mem_cons_self ..)) leaves
  obtain ⟨going, transition, _⟩ := transition_of_exit leaves
  exact wellFormed.resolved n (trail.reachable n (List.mem_cons_self ..)) going t transition

/-- Without cycles, a node that a trail goes on to is not on the path. -/
theorem resolve_of_trail (wellFormed : g.WellFormed r) (position : At s p) (target : v.target.bind g.find? = some n)
    (trail : g.Trail g.Leads (n :: p)) : resolve g s v = .ok n := by
  have nodup := Graph.Trail.nodup wellFormed.acyclic trail
  have fresh : n.name ∉ s.path := by
    rw [position.path]
    intro member
    obtain ⟨m, listed, named⟩ := List.mem_map.mp member
    have same : m = n := Graph.eq_of_name_eq (trail.mem m (List.mem_cons_of_mem _ listed))
      (trail.mem n (List.mem_cons_self ..)) named
    exact (List.nodup_cons.mp nodup).1 (same ▸ listed)
  simp [resolve, target, fresh]

/-- The state is along a trail, and the visits that go on from it come to nodes of the graph. -/
structure Arriving (g : Graph) (p : List Node) (s : State) (visits : List Visit) : Prop extends
    Along g p s visits where
  arrives : ∀ v ∈ visits, ∃ n, v.target.bind g.find? = some n

theorem maintained_arriving (single : g.SingleExit) (wellFormed : g.WellFormed r) : Maintained g (Arriving g) where
  inside here found entered :=
    ⟨(maintained_along g).inside here.toAlong found entered,
      arrives_of_enter single wellFormed (here.trail found) entered⟩
  onward here found entered walks last :=
    ⟨(maintained_along g).onward here.toAlong found entered walks last.toAlong,
      fun w later => here.arrives w (List.mem_cons_of_mem _ later)⟩

theorem Arriving.resolves (arriving : Arriving g p s (v :: rest)) (wellFormed : g.WellFormed r) :
    ∃ n, resolve g s v = .ok n := by
  obtain ⟨n, target⟩ := arriving.arrives v (List.mem_cons_self ..)
  exact ⟨n, resolve_of_trail wellFormed arriving.position target
    ((arriving.continues v (List.mem_cons_self ..)).leads n target)⟩

/-! ### Codes -/

/-- The codes of what can be wrong with forks, joins and nodes that are visited again. -/
def faultCodes : List FaultCode :=
  [.unbalancedForkJoinCount, .forkDuplicateTarget, .joinWithoutFork, .joinForkMismatch, .illegalNodeRevisit,
    .parallelBranchUnjoinedEnd]

theorem Refusal.code (refusal : Refusal s n fault) : ∃ code ∈ faultCodes, fault.code? = some code := by
  cases refusal with
  | revisit => exact ⟨_, by decide, rfl⟩
  | repeatedTarget _ => exact ⟨_, by decide, rfl⟩
  | strayJoin _ _ => exact ⟨_, by decide, rfl⟩
  | mismatch _ _ _ => exact ⟨_, by decide, rfl⟩
  | openEnd _ _ => exact ⟨_, by decide, rfl⟩

end ForkJoin

/-- On a graph whose structure was reported the check stops only for forks, joins and repeated nodes. -/
theorem Graph.checkForkJoin_codes {g : Graph} {r : Registry} {report : StructureReport} {fault : Fault}
    (single : g.SingleExit) (checked : g.checkStructure r = .ok report)
    (stopped : g.checkForkJoin report = .error fault) :
    (∃ code ∈ ForkJoin.faultCodes, fault.code? = some code) ∧ fault.code? ≠ some .danglingTransition ∧
      fault.code? ≠ some .cycleDetected ∧ fault.code? ≠ some .internalError := by
  have known : ∃ code ∈ ForkJoin.faultCodes, fault.code? = some code := by
    obtain ⟨s, first, explored⟩ := Graph.explored_of_checkStructure checked
    have wellFormed := explored.wellFormed first
    rcases ForkJoin.fails_of_check stopped with ⟨_, _, rfl⟩ | ⟨none, _⟩ | ⟨s', first', fails⟩
    · exact ⟨_, by decide, rfl⟩
    · rw [first] at none
      cases none
    · have arriving : ForkJoin.Arriving g [] {} [⟨some s'.name, true, none⟩] := by
        refine ⟨ForkJoin.along_start first', fun v member => ?_⟩
        rw [List.mem_singleton.mp member]
        exact ⟨s', Graph.find?_of_mem (Graph.mem_of_start? first')⟩
      obtain ⟨q, after, v, rest, here, lost | ⟨n, _, refused⟩⟩ :=
        (ForkJoin.maintained_arriving single wellFormed).fails fails arriving
      · obtain ⟨n, found⟩ := here.resolves wellFormed
        rw [found] at lost
        cases lost
      · exact (ForkJoin.enter_error refused).code
  obtain ⟨code, listed, coded⟩ := known
  refine ⟨⟨code, listed, coded⟩, ?_, ?_, ?_⟩ <;>
    · rw [coded]
      rintro ⟨⟩
      revert listed
      decide

theorem Graph.checkForkJoin_codes_endInside :
    endInside.SingleExit ∧ endInside.checkStructure (Registry.withBuiltins []) = .ok ⟨["split"], ["close"], 4⟩ ∧
      endInside.checkForkJoin ⟨["split"], ["close"], 4⟩ = .error (.unjoinedEnd (some "split") "split" "done") ∧
      ∃ code ∈ ForkJoin.faultCodes, (Fault.unjoinedEnd (some "split") "split" "done").code? = some code := by
  have single : endInside.SingleExit := by decide
  have checked : endInside.checkStructure (Registry.withBuiltins []) = .ok ⟨["split"], ["close"], 4⟩ :=
    checkStructure_of_turns rfl rfl (k := 40) (by decide +kernel)
  have stopped : endInside.checkForkJoin ⟨["split"], ["close"], 4⟩ =
      .error (.unjoinedEnd (some "split") "split" "done") := by decide +kernel
  exact ⟨single, checked, stopped, (checkForkJoin_codes single checked stopped).1⟩

end WorkflowCompiler
