import WorkflowCompiler.Proofs.Structure

/-!
Structured workflows. A block is empty, or it begins with an action, with a
decision over some blocks or with a fork over some blocks that its own join
closes, and goes on with a block. `Block.workflow` lists the nodes of the
workflow that runs a block between the start node and an end node, where all
errors lead to one kill node. Every transition leads to a node further on in this
list, so nothing dangles and there are no cycles (`Block.wellFormed`), and every
fork can be reached together with its join (`Block.forks_eq_joins`).
-/
namespace WorkflowCompiler

mutual

inductive Block
  | empty
  | action (name : String) (spec : ActionSpec) (next : Block)
  | decision (name switch : String) (branches : Branches) (next : Block)
  | fork (name join : String) (branches : Branches) (next : Block)

/-- One or more blocks. -/
inductive Branches
  | one (b : Block)
  | more (b : Block) (rest : Branches)

end

/-- Where a block begins, if it is followed by the given node. -/
def Block.entry (after : String) : Block → String
  | .empty => after
  | .action name .. => name
  | .decision name .. => name
  | .fork name .. => name

def Branches.entries (after : String) : Branches → List String
  | .one b => [b.entry after]
  | .more b rest => b.entry after :: rest.entries after

mutual

/-- The nodes of a block between the node that follows it and the node for errors. -/
def Block.nodes (kill after : String) : Block → List Node
  | .empty => []
  | .action name spec next => ⟨name, .action (next.entry after) kill spec⟩ :: next.nodes kill after
  | .decision name switch branches next =>
    ⟨name, .decision switch (branches.entries (next.entry after))⟩ ::
      (branches.nodes kill (next.entry after) ++ next.nodes kill after)
  | .fork name join branches next =>
    ⟨name, .fork (branches.entries join)⟩ ::
      (branches.nodes kill join ++ ⟨join, .join [next.entry after]⟩ :: next.nodes kill after)

def Branches.nodes (kill after : String) : Branches → List Node
  | .one b => b.nodes kill after
  | .more b rest => b.nodes kill after ++ rest.nodes kill after

end

/-- The nodes of the workflow that runs a block. -/
def Block.workflow (kill stop : String) (message : Option String) (b : Block) : List Node :=
  ⟨startName, .start [b.entry stop]⟩ ::
    (b.nodes kill stop ++ [⟨kill, .kill message []⟩, ⟨stop, .finish []⟩])

def nodeNames (nodes : List Node) : List String := nodes.map Node.name

@[simp] theorem nodeNames_cons (n : Node) (nodes : List Node) :
    nodeNames (n :: nodes) = n.name :: nodeNames nodes := rfl

@[simp] theorem nodeNames_append (a b : List Node) : nodeNames (a ++ b) = nodeNames a ++ nodeNames b :=
  List.map_append

variable {g : Graph} {kill : String}

/-! ### Transitions lead onward -/

/-- A block begins with one of its nodes or with what follows it. -/
theorem Block.entry_mem (kill : String) {after : String} {names : List String} (follows : after ∈ names)
    (b : Block) : b.entry after ∈ nodeNames (b.nodes kill after) ++ names := by
  cases b with
  | empty => exact List.mem_append_right _ follows
  | action name spec next => simp [Block.entry, Block.nodes]
  | decision name switch branches next => simp [Block.entry, Block.nodes]
  | fork name join branches next => simp [Block.entry, Block.nodes]

theorem Branches.entries_mem (kill : String) {after : String} {names : List String} (follows : after ∈ names) :
    (bs : Branches) → ∀ t ∈ bs.entries after, t ∈ nodeNames (bs.nodes kill after) ++ names
  | .one b => by
    intro t member
    rw [Branches.entries, List.mem_singleton] at member
    rw [member, Branches.nodes]
    exact b.entry_mem kill follows
  | .more b rest => by
    intro t member
    rw [Branches.nodes, nodeNames_append, List.append_assoc]
    rcases List.mem_cons.mp member with rfl | member
    · exact b.entry_mem kill (List.mem_append_right _ follows)
    · exact List.mem_append_right _ (rest.entries_mem kill follows t member)

/-- A name whose node leads on to later names may come before them. -/
theorem Structure.Closed.cons {done : List String} (closed : Structure.Closed g done)
    (known : ∀ name ∈ done, ∃ m, g.find? name = some m) {n : Node} (member : n ∈ g.nodes)
    (onward : ∀ t ∈ n.transitions, t ∈ done) : Structure.Closed g (n.name :: done) := by
  refine ⟨fun m found _ t transition => ?_, closed⟩
  rw [Graph.find?_of_mem member] at found
  cases found
  obtain ⟨k, foundK⟩ := known t (onward t transition)
  exact ⟨k, foundK, Graph.name_of_find? foundK ▸ onward t transition⟩

theorem find?_of_nodeNames {nodes : List Node} (inside : nodes ⊆ g.nodes) :
    ∀ name ∈ nodeNames nodes, ∃ m, g.find? name = some m := by
  intro name member
  obtain ⟨m, listed, rfl⟩ := List.mem_map.mp member
  exact ⟨m, Graph.find?_of_mem (inside listed)⟩

mutual

theorem Block.closed {after : String} {ns : List Node} (errors : kill ∈ nodeNames ns) (follows : after ∈ nodeNames ns)
    (closed : Structure.Closed g (nodeNames ns)) :
    (b : Block) → b.nodes kill after ++ ns ⊆ g.nodes →
      Structure.Closed g (nodeNames (b.nodes kill after ++ ns))
  | .empty => fun _ => by simpa [Block.nodes] using closed
  | .action name spec next => by
    intro inside
    rw [Block.nodes, List.cons_append] at inside ⊢
    obtain ⟨here, inside⟩ := List.cons_subset.mp inside
    refine (next.closed errors follows closed inside).cons (find?_of_nodeNames inside) here ?_
    intro t transition
    rw [nodeNames_append]
    rcases List.mem_pair.mp transition with rfl | rfl
    · exact next.entry_mem kill follows
    · exact List.mem_append_right _ errors
  | .decision name switch branches next => by
    intro inside
    rw [Block.nodes, List.cons_append, List.append_assoc] at inside ⊢
    obtain ⟨here, inside⟩ := List.cons_subset.mp inside
    have beyond := next.closed errors follows closed (List.append_subset.mp inside).2
    have begins : next.entry after ∈ nodeNames (next.nodes kill after ++ ns) := by
      rw [nodeNames_append]
      exact next.entry_mem kill follows
    have errors : kill ∈ nodeNames (next.nodes kill after ++ ns) := by
      rw [nodeNames_append]
      exact List.mem_append_right _ errors
    refine (branches.closed errors begins beyond inside).cons (find?_of_nodeNames inside) here ?_
    intro t transition
    rw [nodeNames_append]
    exact branches.entries_mem kill begins t transition
  | .fork name join branches next => by
    intro inside
    rw [Block.nodes, List.cons_append, List.append_assoc, List.cons_append] at inside ⊢
    obtain ⟨here, inside⟩ := List.cons_subset.mp inside
    obtain ⟨closing, beyond⟩ := List.cons_subset.mp (List.append_subset.mp inside).2
    have joined : Structure.Closed g
        (nodeNames (⟨join, .join [next.entry after]⟩ :: (next.nodes kill after ++ ns))) := by
      refine (next.closed errors follows closed beyond).cons (find?_of_nodeNames beyond) closing ?_
      intro t transition
      rw [nodeNames_append, List.mem_singleton.mp transition]
      exact next.entry_mem kill follows
    refine (branches.closed (by simp [errors]) (List.mem_cons_self ..) joined inside).cons
      (find?_of_nodeNames inside) here ?_
    intro t transition
    rw [nodeNames_append]
    exact branches.entries_mem kill (List.mem_cons_self ..) t transition

theorem Branches.closed {after : String} {ns : List Node} (errors : kill ∈ nodeNames ns) (follows : after ∈ nodeNames ns)
    (closed : Structure.Closed g (nodeNames ns)) :
    (bs : Branches) → bs.nodes kill after ++ ns ⊆ g.nodes →
      Structure.Closed g (nodeNames (bs.nodes kill after ++ ns))
  | .one b => by
    intro inside
    rw [Branches.nodes] at inside ⊢
    exact b.closed errors follows closed inside
  | .more b rest => by
    intro inside
    rw [Branches.nodes, List.append_assoc] at inside ⊢
    have beyond := rest.closed errors follows closed (List.append_subset.mp inside).2
    refine b.closed ?_ ?_ beyond inside
    · simp [errors]
    · simp [follows]

end

/-! ### Reachable nodes -/

/-- The node of a name can be reached. -/
def Graph.ReachableName (g : Graph) (name : String) : Prop := ∃ n, g.find? name = some n ∧ g.Reachable n

theorem Graph.ReachableName.here {n : Node} (reachable : g.ReachableName n.name) (member : n ∈ g.nodes) :
    g.Reachable n := by
  obtain ⟨m, found, reached⟩ := reachable
  rw [find?_of_mem member] at found
  cases found
  exact reached

theorem Graph.Reachable.onward {n : Node} (reachable : g.Reachable n) (going : Structure.isTerminal n = false)
    {t : String} (transition : t ∈ n.transitions) (known : ∃ m, g.find? t = some m) : g.ReachableName t := by
  obtain ⟨m, found⟩ := known
  exact ⟨m, found, reachable.tail ⟨going, t, transition, found⟩⟩

theorem Block.known {after : String} (follows : ∃ m, g.find? after = some m) (b : Block) (inside : b.nodes kill after ⊆ g.nodes) :
    ∃ m, g.find? (b.entry after) = some m := by
  rcases List.mem_append.mp (b.entry_mem kill (List.mem_singleton_self after)) with own | other
  · exact find?_of_nodeNames inside _ own
  · rw [List.mem_singleton.mp other]
    exact follows

theorem Branches.known {after : String} (follows : ∃ m, g.find? after = some m) (bs : Branches)
    (inside : bs.nodes kill after ⊆ g.nodes) : ∀ t ∈ bs.entries after, ∃ m, g.find? t = some m := by
  intro t transition
  rcases List.mem_append.mp (bs.entries_mem kill (List.mem_singleton_self after) t transition) with own | other
  · exact find?_of_nodeNames inside _ own
  · rw [List.mem_singleton.mp other]
    exact follows

mutual

/-- Where the beginning of a block can be reached, so can all of it and what follows. -/
theorem Block.reachable {after : String} (follows : ∃ m, g.find? after = some m) :
    (b : Block) → b.nodes kill after ⊆ g.nodes → g.ReachableName (b.entry after) →
      (∀ n ∈ b.nodes kill after, g.Reachable n) ∧ g.ReachableName after
  | .empty => by
    intro _ begins
    exact ⟨by simp [Block.nodes], begins⟩
  | .action name spec next => by
    intro inside begins
    rw [Block.nodes] at inside ⊢
    obtain ⟨here, inside⟩ := List.cons_subset.mp inside
    have reached := begins.here (n := ⟨name, _⟩) here
    obtain ⟨all, beyond⟩ := next.reachable follows inside
      (reached.onward rfl (List.mem_cons_self ..) (next.known follows inside))
    exact ⟨List.forall_mem_cons.mpr ⟨reached, all⟩, beyond⟩
  | .decision name switch branches next => by
    intro inside begins
    rw [Block.nodes] at inside ⊢
    obtain ⟨here, inside⟩ := List.cons_subset.mp inside
    obtain ⟨within, inside⟩ := List.append_subset.mp inside
    have reached := begins.here (n := ⟨name, _⟩) here
    have known := next.known follows inside
    obtain ⟨allBranches, onward⟩ := branches.reachable known within fun t transition =>
      reached.onward rfl transition (branches.known known within t transition)
    obtain ⟨all, beyond⟩ := next.reachable follows inside onward
    exact ⟨List.forall_mem_cons.mpr ⟨reached, List.forall_mem_append.mpr ⟨allBranches, all⟩⟩, beyond⟩
  | .fork name join branches next => by
    intro inside begins
    rw [Block.nodes] at inside ⊢
    obtain ⟨here, inside⟩ := List.cons_subset.mp inside
    obtain ⟨within, inside⟩ := List.append_subset.mp inside
    obtain ⟨closing, inside⟩ := List.cons_subset.mp inside
    have reached := begins.here (n := ⟨name, _⟩) here
    have known : ∃ m, g.find? join = some m := ⟨_, Graph.find?_of_mem closing⟩
    obtain ⟨allBranches, joined⟩ := branches.reachable known within fun t transition =>
      reached.onward rfl transition (branches.known known within t transition)
    have closed := joined.here (n := ⟨join, _⟩) closing
    obtain ⟨all, beyond⟩ := next.reachable follows inside
      (closed.onward rfl (List.mem_cons_self ..) (next.known follows inside))
    refine ⟨List.forall_mem_cons.mpr ⟨reached, List.forall_mem_append.mpr ⟨allBranches, ?_⟩⟩, beyond⟩
    exact List.forall_mem_cons.mpr ⟨closed, all⟩

theorem Branches.reachable {after : String} (follows : ∃ m, g.find? after = some m) :
    (bs : Branches) → bs.nodes kill after ⊆ g.nodes → (∀ t ∈ bs.entries after, g.ReachableName t) →
      (∀ n ∈ bs.nodes kill after, g.Reachable n) ∧ g.ReachableName after
  | .one b => by
    intro inside begins
    rw [Branches.nodes] at inside ⊢
    exact b.reachable follows inside (begins _ (List.mem_cons_self ..))
  | .more b rest => by
    intro inside begins
    rw [Branches.nodes] at inside ⊢
    obtain ⟨within, inside⟩ := List.append_subset.mp inside
    obtain ⟨all, beyond⟩ := b.reachable follows within (begins _ (List.mem_cons_self ..))
    obtain ⟨others, _⟩ := rest.reachable follows inside fun t member => begins t (List.mem_cons_of_mem _ member)
    exact ⟨List.forall_mem_append.mpr ⟨all, others⟩, beyond⟩

end

/-! ### The whole workflow -/

/-- How many nodes of a kind there are. -/
def countKind (kind : NodeKind) (nodes : List Node) : Nat := nodes.countP (·.kind = kind)

theorem countKind_nil (kind : NodeKind) : countKind kind [] = 0 := rfl

theorem countKind_cons (kind : NodeKind) (n : Node) (nodes : List Node) :
    countKind kind (n :: nodes) = countKind kind nodes + if n.kind = kind then 1 else 0 := by
  simp [countKind, List.countP_cons]

theorem countKind_append (kind : NodeKind) (a b : List Node) :
    countKind kind (a ++ b) = countKind kind a + countKind kind b := List.countP_append

mutual

/-- A block has one join for each fork. -/
theorem Block.countKind_fork (kill after : String) :
    (b : Block) → countKind .fork (b.nodes kill after) = countKind .join (b.nodes kill after)
  | .empty => by simp [Block.nodes, countKind]
  | .action name spec next => by
    simp [Block.nodes, countKind_cons, Node.kind, next.countKind_fork kill after]
  | .decision name switch branches next => by
    simp [Block.nodes, countKind_cons, countKind_append, Node.kind, next.countKind_fork kill after,
      branches.countKind_fork kill (next.entry after)]
  | .fork name join branches next => by
    simp only [Block.nodes, countKind_cons, countKind_append, next.countKind_fork kill after,
      branches.countKind_fork kill join]
    simp [Node.kind]
    omega

theorem Branches.countKind_fork (kill after : String) :
    (bs : Branches) → countKind .fork (bs.nodes kill after) = countKind .join (bs.nodes kill after)
  | .one b => b.countKind_fork kill after
  | .more b rest => by
    simp only [Branches.nodes, countKind_append, b.countKind_fork kill after, rest.countKind_fork kill after]

end

/-- A graph that has just the nodes of the workflow that runs a block, in any order. -/
def Graph.Runs (g : Graph) (kill stop : String) (message : Option String) (b : Block) : Prop :=
  g.nodes.Perm (b.workflow kill stop message)

variable {stop : String} {message : Option String} {b : Block}

theorem Graph.Runs.mem_iff (runs : g.Runs kill stop message b) (n : Node) :
    n ∈ g.nodes ↔ n = ⟨startName, .start [b.entry stop]⟩ ∨ n ∈ b.nodes kill stop ∨
      n = ⟨kill, .kill message []⟩ ∨ n = ⟨stop, .finish []⟩ := by
  rw [List.Perm.mem_iff runs, Block.workflow]
  simp

mutual

theorem Block.kind_ne_start {after : String} : (b : Block) → ∀ n ∈ b.nodes kill after, n.kind ≠ .start
  | .empty => by simp [Block.nodes]
  | .action name spec next => by
    rw [Block.nodes]
    exact List.forall_mem_cons.mpr ⟨by simp [Node.kind], next.kind_ne_start⟩
  | .decision name switch branches next => by
    rw [Block.nodes]
    exact List.forall_mem_cons.mpr ⟨by simp [Node.kind],
      List.forall_mem_append.mpr ⟨branches.kind_ne_start, next.kind_ne_start⟩⟩
  | .fork name join branches next => by
    rw [Block.nodes]
    exact List.forall_mem_cons.mpr ⟨by simp [Node.kind], List.forall_mem_append.mpr
      ⟨branches.kind_ne_start, List.forall_mem_cons.mpr ⟨by simp [Node.kind], next.kind_ne_start⟩⟩⟩

theorem Branches.kind_ne_start {after : String} : (bs : Branches) → ∀ n ∈ bs.nodes kill after, n.kind ≠ .start
  | .one b => b.kind_ne_start
  | .more b rest => by
    rw [Branches.nodes]
    exact List.forall_mem_append.mpr ⟨b.kind_ne_start, rest.kind_ne_start⟩

end

theorem Graph.Runs.start (runs : g.Runs kill stop message b) :
    g.start? = some ⟨startName, .start [b.entry stop]⟩ := by
  cases first : g.start? with
  | none =>
    have absent := List.find?_eq_none.mp first ⟨startName, .start [b.entry stop]⟩
      (List.mem_reverse.mpr ((runs.mem_iff _).mpr (.inl rfl)))
    simp [Node.kind] at absent
  | some s =>
    have kind := kind_of_start? first
    rcases (runs.mem_iff s).mp (mem_of_start? first) with rfl | inner | rfl | rfl
    · rfl
    · exact absurd kind (b.kind_ne_start s inner)
    · simp [Node.kind] at kind
    · simp [Node.kind] at kind

/-- The names in the order of the workflow lead onward only. -/
theorem Graph.Runs.closed (runs : g.Runs kill stop message b) :
    Structure.Closed g (nodeNames (b.workflow kill stop message)) := by
  have inside : b.workflow kill stop message ⊆ g.nodes := fun n member => (List.Perm.mem_iff runs).mpr member
  rw [Block.workflow] at inside ⊢
  obtain ⟨first, within⟩ := List.cons_subset.mp inside
  obtain ⟨killed, stopped⟩ := List.cons_subset.mp (List.append_subset.mp within).2
  have ends : Structure.Closed g (nodeNames [⟨kill, .kill message []⟩, ⟨stop, .finish []⟩]) :=
    (Structure.Closed.cons (show Structure.Closed g [] from True.intro) (by simp) (stopped (List.mem_cons_self ..))
      (by simp [Node.transitions])).cons (find?_of_nodeNames stopped) killed (by simp [Node.transitions])
  have errors : kill ∈ nodeNames [⟨kill, .kill message []⟩, ⟨stop, .finish []⟩] := by simp
  have follows : stop ∈ nodeNames [⟨kill, .kill message []⟩, ⟨stop, .finish []⟩] := by simp
  have later := b.closed errors follows ends within
  refine later.cons (find?_of_nodeNames within) first ?_
  intro t transition
  rw [List.mem_singleton.mp transition, nodeNames_append]
  exact b.entry_mem kill (by simp)

theorem Graph.Runs.wellFormed (runs : g.Runs kill stop message b) {r : Registry}
    (named : ∀ n ∈ g.nodes, n.kind ≠ .start → LegalName n.name)
    (typed : ∀ n ∈ g.nodes, ∀ ok error spec, n.body = .action ok error spec →
      ∃ e, Markup.parse spec.conf = .ok e ∧ r.supports e.name = true) : g.WellFormed r := by
  have names : (nodeNames (b.workflow kill stop message)).Perm (g.nodes.map Node.name) := (runs.map Node.name).symm
  have listed (n : Node) (reachable : g.Reachable n) : n.name ∈ nodeNames (b.workflow kill stop message) :=
    names.mem_iff.mpr (List.mem_map_of_mem reachable.mem)
  refine ⟨?_, ?_, ?_, ?_⟩
  · intro n reachable going t transition
    obtain ⟨m, found, _⟩ := runs.closed.target reachable.mem (listed n reachable) going transition
    exact ⟨m, found⟩
  · intro n reachable
    exact runs.closed.acyclic (names.nodup_iff.mpr g.distinct) reachable.mem (listed n reachable)
  · exact fun n reachable => named n reachable.mem
  · exact fun n ok error spec reachable => typed n reachable.mem ok error spec

/-- Everything but the kill node can be reached. -/
theorem Graph.Runs.reachable (runs : g.Runs kill stop message b) {n : Node} (member : n ∈ g.nodes)
    (other : n ≠ ⟨kill, .kill message []⟩) : g.Reachable n := by
  have inside : b.nodes kill stop ⊆ g.nodes := fun n member => (runs.mem_iff n).mpr (.inr (.inl member))
  have stopped : (⟨stop, .finish []⟩ : Node) ∈ g.nodes := (runs.mem_iff _).mpr (.inr (.inr (.inr rfl)))
  have follows : ∃ m, g.find? stop = some m := ⟨_, find?_of_mem stopped⟩
  have first : g.Reachable ⟨startName, .start [b.entry stop]⟩ := ⟨_, runs.start, .refl⟩
  obtain ⟨all, beyond⟩ := b.reachable follows inside
    (first.onward rfl (List.mem_cons_self ..) (b.known follows inside))
  rcases (runs.mem_iff n).mp member with rfl | inner | rfl | rfl
  · exact first
  · exact all n inner
  · exact absurd rfl other
  · exact beyond.here stopped

/-- The nodes of a kind that can be reached are as many as the graph has. -/
theorem Graph.Runs.length_eq (runs : g.Runs kill stop message b) {kind : NodeKind} (notKill : kind ≠ .kill)
    {names : List String} (distinct : names.Nodup)
    (listed : ∀ name, name ∈ names ↔ ∃ n, g.Reachable n ∧ n.kind = kind ∧ n.name = name) :
    names.length = countKind kind g.nodes := by
  have all : names.Perm ((g.nodes.filter (·.kind = kind)).map Node.name) := by
    refine (List.perm_ext_iff_of_nodup distinct ?_).mpr fun name => ?_
    · exact g.distinct.sublist (List.filter_sublist.map _)
    · rw [listed name]
      constructor
      · rintro ⟨n, reachable, isKind, rfl⟩
        exact List.mem_map_of_mem (List.mem_filter.mpr ⟨reachable.mem, by simpa using isKind⟩)
      · intro member
        obtain ⟨n, here, rfl⟩ := List.mem_map.mp member
        obtain ⟨here, isKind⟩ := List.mem_filter.mp here
        have isKind : n.kind = kind := by simpa using isKind
        refine ⟨n, runs.reachable here ?_, isKind, rfl⟩
        rintro rfl
        exact notKill isKind.symm
  rw [all.length_eq, List.length_map, countKind, List.countP_eq_length_filter]

theorem Graph.Runs.forks_eq_joins (runs : g.Runs kill stop message b) {r : Registry} {report : StructureReport}
    (checked : g.checkStructure r = .ok report) : report.forks.length = report.joins.length := by
  obtain ⟨s, first, explored⟩ := explored_of_checkStructure checked
  obtain ⟨_, ⟨distinctForks, forks⟩, distinctJoins, joins⟩ := explored.report first
  rw [runs.length_eq (by decide) distinctForks forks, runs.length_eq (by decide) distinctJoins joins]
  have same (kind : NodeKind) : countKind kind g.nodes = countKind kind (b.workflow kill stop message) :=
    List.Perm.countP_eq _ runs
  simp [same, Block.workflow, countKind_cons, countKind_append, b.countKind_fork kill stop, Node.kind, countKind_nil]

end WorkflowCompiler
