import WorkflowCompiler.Proofs.DepthFirst

/-!
Cycles that the structural walk reports. A fault is met in a turn from a state that
keeps the invariant of the walk (`refused_at`), so the open nodes are then a trail
without repetition. The cycle is cut out of it at the node that the next transition
leads back to: it begins and ends there, and every name on it is that of a node that
can be reached and names the next one (`Graph.checkStructure_cycle`).
-/
namespace WorkflowCompiler

/-- A way from a node back to itself, over nodes that can be reached, none of which it meets twice. -/
structure Graph.Circuit (g : Graph) (n : Node) (others : List Node) : Prop where
  reachable : ∀ m ∈ n :: others, g.Reachable m
  distinct : ((n :: others).map Node.name).Nodup
  onward : (n :: others ++ [n]).IsChain fun m next => next.name ∈ m.transitions

/-- A node names the nodes that it leads to. -/
theorem Graph.Leads.named {g : Graph} {m n : Node} (leads : g.Leads m n) : n.name ∈ m.transitions := by
  obtain ⟨_, t, transition, found⟩ := leads
  rw [Graph.name_of_find? found]
  exact transition

namespace Structure
variable {g : Graph} {r : Registry} {w next : Walk} {n m : Node} {fault : Fault}

theorem Invariant.turn (inv : Invariant g r w) (took : turn g r w = .inr next) : Invariant g r next := by
  cases proceeds_of_turn took with
  | leave top => exact invariant_leave top inv
  | skip top found isDone => exact invariant_skip top found isDone inv
  | enter top found notOpen notDone passes => exact invariant_push top found notOpen notDone passes inv

/-- A fault ends the walk in a turn from a state that keeps the invariant. -/
theorem refused_at (inv : Invariant g r w) (refused : walk g r w = .error fault) :
    ∃ last, Invariant g r last ∧ turn g r last = .inl (.error fault) := by
  rw [← refused]
  exact exists_last_turn (walk_turn g r) (remaining_turn g r) (fun _ _ inv took => inv.turn took) inv

/-- What keeps a node from being entered has nothing to do with the way to it. -/
theorem code_of_checkNode (refused : checkNode r n = .error fault) : fault.code? = some .invalidIdentifier ∨
    fault.code? = some .unsupportedActionType ∨ fault.code? = some .internalError := by
  unfold checkNode at refused
  split at refused
  · rename_i misnamed
    cases refused
    unfold checkName at misnamed
    split at misnamed
    · cases misnamed
    · unfold checkNodeName at misnamed
      split at misnamed
      · cases misnamed
        exact .inl rfl
      · split at misnamed
        · cases misnamed
        · cases misnamed
          exact .inl rfl
  · split at refused
    · unfold checkAction at refused
      split at refused
      · rename_i unreadable
        cases refused
        unfold actionType at unreadable
        split at unreadable
        · cases unreadable
        · cases unreadable
          exact .inr (.inr rfl)
      · split at refused
        · cases refused
        · cases refused
          exact .inr (.inl rfl)
    · cases refused

/-- A turn reports a cycle at a transition that leads back to an open node. -/
theorem closes_of_turn (took : turn g r w = .inl (.error fault)) (code : fault.code? = some .cycleDetected) :
    ∃ n t rest below m, w.stack = ⟨n, t :: rest⟩ :: below ∧ g.find? t = some m ∧ m.name ∈ w.openNames ∧
      fault = .cycleClosing m.name (cycleAt w.openNames m.name) := by
  unfold turn at took
  split at took
  · cases took
  · cases took
  · rename_i n t rest below top
    split at took
    · cases took
      cases code
    · rename_i m found
      split at took
      · rename_i isOpen
        cases took
        exact ⟨n, t, rest, below, m, top, found, isOpen, rfl⟩
      · split at took
        · cases took
        · split at took
          · rename_i refused
            cases took
            rcases code_of_checkNode refused with other | other | other <;> rw [other] at code <;> cases code
          · cases took

/-- The names from an open node on, if no two open nodes have one name. -/
theorem cycleAt_eq {above below : List String} {name : String} (distinct : (above ++ name :: below).Nodup) :
    cycleAt (above ++ name :: below) name = name :: above.reverse ++ [name] := by
  have apart : ∀ other ∈ below.reverse, (other != name) = true := by
    intro other member
    rw [bne_iff_ne]
    rintro rfl
    exact (List.nodup_cons.mp (List.nodup_append.mp distinct).2.1).1 (List.mem_reverse.mp member)
  rw [cycleAt, List.reverse_append, List.reverse_cons, List.append_assoc, List.singleton_append,
    List.dropWhile_append_of_pos apart, List.dropWhile_cons_of_neg (by simp)]

/-- The open nodes from one that the innermost leads back to are a circuit. -/
theorem Invariant.circuit (inv : Invariant g r w) {upper lower : List Frame} {f : Frame}
    (split : w.stack = upper ++ f :: lower) (closing : ∀ top ∈ w.stack.head?, g.Leads top.node f.node) :
    g.Circuit f.node (upper.map Frame.node).reverse := by
  have nodes : f.node :: (upper.map Frame.node).reverse = ((upper ++ [f]).map Frame.node).reverse := by
    rw [List.map_append, List.reverse_append, List.map_singleton, List.reverse_singleton, List.singleton_append]
  have whole : w.stack = upper ++ [f] ++ lower := by rw [split, List.append_assoc, List.singleton_append]
  refine ⟨fun m member => ?_, ?_, ?_⟩
  · rw [nodes, List.mem_reverse, List.mem_map] at member
    obtain ⟨f', isOpen, rfl⟩ := member
    exact (inv.going f' (whole ▸ List.mem_append_left _ isOpen)).2
  · have names := (List.nodup_append.mp inv.distinct).1
    rw [Walk.openNames, whole, List.map_append] at names
    rw [nodes, List.map_reverse, List.nodup_reverse, List.map_map]
    exact (List.nodup_append.mp names).1
  · have chain := inv.chain
    rw [whole] at chain
    rw [nodes, List.isChain_append]
    refine ⟨?_, List.isChain_singleton _, ?_⟩
    · rw [List.isChain_reverse, List.isChain_map]
      exact chain.left_of_append.imp fun _ _ leads => leads.named
    · intro last final back isFirst
      rw [List.getLast?_reverse, List.head?_map] at final
      obtain ⟨top, first, rfl⟩ := Option.map_eq_some_iff.mp final
      cases isFirst
      refine (closing top ?_).named
      rw [whole, List.head?_append, first]
      rfl

/-- A cycle is reported by the walk and not before it begins. -/
theorem cycle_in_walk (failed : g.checkStructure r = .error fault) (code : fault.code? = some .cycleDetected) :
    ∃ last, Invariant g r last ∧ turn g r last = .inl (.error fault) := by
  cases first : g.start? with
  | none =>
    simp only [Graph.checkStructure, Graph.start, first] at failed
    cases failed
    cases code
  | some s =>
    simp only [Graph.checkStructure, Graph.start, first] at failed
    split at failed
    · rename_i refused
      cases failed
      rcases code_of_checkNode refused with other | other | other <;> rw [other] at code <;> cases code
    · rename_i passes
      exact refused_at (invariant_start first passes) failed

end Structure

/-- The cycle that is printed comes back to the node of the fault, over different nodes that can be reached, each of
    which names the next one. -/
theorem Graph.checkStructure_cycle {g : Graph} {r : Registry} {fault : Fault} (failed : g.checkStructure r = .error fault)
    (code : fault.code? = some .cycleDetected) :
    ∃ n others, g.Circuit n others ∧ fault.node? = some n.name ∧
      fault.message = "Cycle detected closing at node [" ++ n.name ++ "]: " ++
        " -> ".intercalate ((n :: others ++ [n]).map Node.name) := by
  obtain ⟨last, inv, took⟩ := Structure.cycle_in_walk failed code
  obtain ⟨n, t, rest, below, m, top, found, isOpen, rfl⟩ := Structure.closes_of_turn took code
  obtain ⟨f, member, name⟩ := List.mem_map.mp isOpen
  have same : f.node = m := Graph.eq_of_name_eq (inv.going f member).2.mem (Graph.mem_of_find? found) name
  subst same
  obtain ⟨upper, lower, split⟩ := List.append_of_mem member
  have closing : ∀ top ∈ last.stack.head?, g.Leads top.node f.node := by
    obtain ⟨_, going, transition⟩ := inv.top top
    intro f' first
    rw [top] at first
    cases first
    exact ⟨going, t, transition, found⟩
  have names : last.openNames = upper.map (·.node.name) ++ f.node.name :: lower.map (·.node.name) := by
    rw [Structure.Walk.openNames, split, List.map_append, List.map_cons]
  have distinct := (List.nodup_append.mp inv.distinct).1
  rw [names] at distinct
  have printed : Structure.cycleAt last.openNames f.node.name =
      (f.node :: (upper.map Structure.Frame.node).reverse ++ [f.node]).map Node.name := by
    rw [names, Structure.cycleAt_eq distinct]
    simp [List.map_reverse, Function.comp_def]
  refine ⟨f.node, (upper.map Structure.Frame.node).reverse, inv.circuit split closing, rfl, ?_⟩
  rw [← printed]
  rfl

/-- The walk comes to the start node before the cycle, which does not go through it. -/
theorem Graph.circuit_cyclicFork :
    cyclicFork.checkStructure (Registry.withBuiltins []) = .error (.cycleClosing "split" ["split", "again", "split"]) ∧
      (Fault.cycleClosing "split" ["split", "again", "split"]).code? = some .cycleDetected ∧
      ∃ n others, cyclicFork.Circuit n others ∧
        (Fault.cycleClosing "split" ["split", "again", "split"]).node? = some n.name ∧
        (Fault.cycleClosing "split" ["split", "again", "split"]).message = "Cycle detected closing at node [" ++ n.name ++ "]: " ++
          " -> ".intercalate ((n :: others ++ [n]).map Node.name) := by
  have stops : cyclicFork.checkStructure (Registry.withBuiltins []) =
      .error (.cycleClosing "split" ["split", "again", "split"]) :=
    checkStructure_of_turns rfl rfl (k := 40) (by decide +kernel)
  exact ⟨stops, rfl, checkStructure_cycle stops rfl⟩

end WorkflowCompiler
