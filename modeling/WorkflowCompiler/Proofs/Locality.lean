import WorkflowCompiler.Proofs.ForkJoin.Recursion

/-!
What cannot be reached does not count. A name is met if it is that of the start node,
or if a node found under a name that is met leads to it (`Graph.Meets`); there need not
be a node of that name. Both walks look up no other names: all that is left to follow or
to visit is met, and every turn keeps that (`Structure.Confined.turn`, `ForkJoin.Confined.turn`).
So two graphs with one start node that find the same under every name that is met take
the same turns, and have the same outcome, whether they pass or fail
(`Graph.checks_local`).
-/
namespace WorkflowCompiler

/-- A name that is met on the ways from the start node, whether or not a node has it. -/
inductive Graph.Meets (g : Graph) : String → Prop
  | start {s : Node} (first : g.start? = some s) : g.Meets s.name
  | next {name t : String} {n : Node} (met : g.Meets name) (found : g.find? name = some n)
      (going : Structure.isTerminal n = false) (transition : t ∈ n.transitions) : g.Meets t

/-- Names that hold the start's and all that their nodes lead to hold every name that is met. -/
theorem Graph.Meets.mem {g : Graph} {names : List String} (starts : ∀ s ∈ g.start?, s.name ∈ names)
    (closed : ∀ name ∈ names, ∀ n ∈ g.find? name, Structure.isTerminal n = false → ∀ t ∈ n.transitions, t ∈ names)
    {name : String} (met : g.Meets name) : name ∈ names := by
  induction met with
  | start first => exact starts _ first
  | next _ found going transition ih => exact closed _ ih _ found going _ transition

namespace Structure
variable {g h : Graph} {r : Registry} {w next : Walk}

/-- All that a walk has still to follow is met. -/
def Confined (g : Graph) (w : Walk) : Prop := ∀ f ∈ w.stack, ∀ t ∈ f.rest, g.Meets t

theorem confined_enter {n : Node} {t : String} (confined : Confined g w) (met : g.Meets t) (found : g.find? t = some n) :
    Confined g (w.enter n) := by
  unfold Walk.enter
  split
  · exact confined
  · rename_i going
    exact List.forall_mem_cons.mpr
      ⟨fun t' transition => .next met found (by simpa using going) transition, confined⟩

/-- Where a transition is followed, what is left to follow was there before, and the transition is met. -/
theorem Confined.follow {n : Node} {t : String} {rest : List String} {below : List Frame} (confined : Confined g w)
    (top : w.stack = ⟨n, t :: rest⟩ :: below) : g.Meets t ∧ Confined g { w with stack := ⟨n, rest⟩ :: below } := by
  rw [Confined, top] at confined
  obtain ⟨here, others⟩ := List.forall_mem_cons.mp confined
  obtain ⟨met, later⟩ := List.forall_mem_cons.mp here
  exact ⟨met, List.forall_mem_cons.mpr ⟨later, others⟩⟩

theorem Confined.turn (confined : Confined g w) (took : turn g r w = .inr next) : Confined g next := by
  cases proceeds_of_turn took with
  | leave top => exact fun f member => confined f (top ▸ List.mem_cons_of_mem _ member)
  | skip top => exact (confined.follow top).2
  | enter top found =>
    obtain ⟨met, followed⟩ := confined.follow top
    exact confined_enter followed met found

/-- A turn looks up one name, which is met. -/
theorem turn_congr (agree : ∀ name, g.Meets name → g.find? name = h.find? name) (confined : Confined g w) :
    Structure.turn g r w = Structure.turn h r w := by
  unfold Structure.turn
  split
  · rfl
  · rfl
  · rename_i n t rest below top
    rw [agree t (confined.follow top).1]

theorem walk_congr (agree : ∀ name, g.Meets name → g.find? name = h.find? name) (confined : Confined g w) :
    walk g r w = walk h r w :=
  outcome_congr (walk_turn g r) (walk_turn h r) (remaining_turn g r) (fun _ _ confined took => confined.turn took)
    (fun _ confined => turn_congr agree confined) confined

end Structure

namespace ForkJoin
variable {g h : Graph} {s inner : State} {tasks : List Task} {v : Visit} {n : Node} {visits : List Visit} {undo : Undo}

/-- All that a list of tasks has still to visit is met. -/
def Confined (g : Graph) (tasks : List Task) : Prop := ∀ v, .visit v ∈ tasks → ∀ t ∈ v.target, g.Meets t

theorem meets_of_enter (met : ∀ t ∈ v.target, g.Meets t) (found : resolve g s v = .ok n)
    (entered : enter g s v n = .ok (visits, undo, inner)) : ∀ w ∈ visits, ∀ t ∈ w.target, g.Meets t := by
  obtain ⟨name, target, found⟩ := Option.bind_eq_some_iff.mp (target_of_resolve found)
  obtain ⟨_, _, _, rfl⟩ := enter_cases entered
  intro w later t leads
  obtain ⟨⟨t', ok⟩, leaves, rfl⟩ := List.mem_map.mp later
  cases leads
  obtain ⟨going, transition, _⟩ := transition_of_exit leaves
  exact .next (met name target) found going transition

theorem Confined.turn {t next : State × List Task} (confined : Confined g t.2) (took : turn g t = .inr next) : Confined g next.2 := by
  cases proceeds_of_turn took with
  | leave => exact fun v member => confined v (List.mem_cons_of_mem _ member)
  | visit found entered =>
    have below := meets_of_enter (confined _ List.mem_cons_self) found entered
    intro w member
    rcases List.mem_append.mp member with visited | member
    · obtain ⟨_, visited, same⟩ := List.mem_map.mp visited
      cases same
      exact below w visited
    · rcases List.mem_cons.mp member with isLeave | member
      · cases isLeave
      · exact confined w (List.mem_cons_of_mem _ member)

theorem resolve_congr (agree : ∀ t ∈ v.target, g.find? t = h.find? t) : resolve g s v = resolve h s v := by
  have same : v.target.bind g.find? = v.target.bind h.find? := Option.bind_congr agree
  rw [resolve, resolve, same]

theorem repeatedTarget?_congr {targets : List String} (agree : ∀ t ∈ targets, g.find? t = h.find? t) :
    repeatedTarget? g targets = repeatedTarget? h targets := by
  induction targets with
  | nil => rfl
  | cons t rest ih =>
    obtain ⟨here, others⟩ := List.forall_mem_cons.mp agree
    rw [repeatedTarget?, repeatedTarget?, here, ih others]

/-- A node is entered in the same way where its transitions lead to the same nodes. -/
theorem enter_congr (agree : Structure.isTerminal n = false → ∀ t ∈ n.transitions, g.find? t = h.find? t) :
    enter g s v n = enter h s v n := by
  have same (s : State) : follow g s n v.clean v.decision = follow h s n v.clean v.decision := by
    unfold follow
    split <;> try rfl
    rename_i targets body
    rw [repeatedTarget?_congr fun t member => agree (by simp [Structure.isTerminal, Node.kind, body]) t
      (by rw [Node.transitions, body]; exact member)]
  simp only [enter, same]

theorem turn_congr (agree : ∀ name, g.Meets name → g.find? name = h.find? name) {t : State × List Task}
    (confined : Confined g t.2) : ForkJoin.turn g t = ForkJoin.turn h t := by
  obtain ⟨s, tasks⟩ := t
  cases tasks with
  | nil => rfl
  | cons task rest =>
    cases task with
    | leave undo => rfl
    | visit v =>
      have met := confined v List.mem_cons_self
      simp only [ForkJoin.turn]
      rw [← resolve_congr fun t target => agree t (met t target)]
      cases resolved : resolve g s v with
      | error fault => rfl
      | ok n =>
        obtain ⟨name, target, found⟩ := Option.bind_eq_some_iff.mp (target_of_resolve resolved)
        dsimp only
        rw [enter_congr fun going t transition => agree t (.next (met name target) found going transition)]

theorem run_congr (agree : ∀ name, g.Meets name → g.find? name = h.find? name) (confined : Confined g tasks) :
    run g s tasks = run h s tasks := by
  have kept (t next : State × List Task) (confined : Confined g t.2) (took : ForkJoin.turn g t = .inr next) :
      Confined g next.2 := confined.turn took
  exact outcome_congr (s := (s, tasks)) (run_turn g) (run_turn h) (cost_turn g) kept (fun _ confined => turn_congr agree confined)
    confined

end ForkJoin

/-- Both checks give the same outcome on graphs that find the same under every name met from their start node. -/
theorem Graph.checks_local {g h : Graph} {s : Node} (first : g.start? = some s) (other : h.start? = some s)
    (agree : ∀ name, g.Meets name → g.find? name = h.find? name) (r : Registry) :
    g.checkStructure r = h.checkStructure r ∧ ∀ report, g.checkForkJoin report = h.checkForkJoin report := by
  have start := Graph.Meets.start first
  have found := Graph.find?_of_mem (Graph.mem_of_start? first)
  have entered : Structure.Confined g (Structure.Walk.enter ⟨[], [], {}⟩ s) :=
    Structure.confined_enter (List.forall_mem_nil _) start found
  have visited : ForkJoin.Confined g [.visit ⟨some s.name, true, none⟩] := by
    intro v member t target
    cases List.mem_singleton.mp member
    cases target
    exact start
  constructor
  · simp only [Graph.checkStructure, Graph.start, first, other, Structure.walk_congr agree entered]
  · intro report
    simp only [Graph.checkForkJoin, Graph.start, first, other, ForkJoin.run_congr agree visited]

/-- The nodes of the cyclic fork in another order, with a node more that leads to it. -/
def Graph.cyclicForkElsewhere : Graph where
  name := "elsewhere"
  nodes :=
    [⟨"aside", .action "split" "lost" { conf := "<mystery/>" }⟩, ⟨"close", .join ["gone"]⟩,
      ⟨"again", .decision "<switch/>" ["split"]⟩, ⟨"split", .fork ["again", "close"]⟩, ⟨startName, .start ["split"]⟩]
  distinct := by decide

/-- Neither graph has the node that its join leads to. -/
theorem Graph.checks_local_cyclicFork :
    cyclicFork.start? = some ⟨startName, .start ["split"]⟩ ∧ cyclicForkElsewhere.start? = some ⟨startName, .start ["split"]⟩ ∧
      cyclicFork.Meets "gone" ∧ (∀ name, cyclicFork.Meets name → cyclicFork.find? name = cyclicForkElsewhere.find? name) ∧
      cyclicFork.checkStructure (Registry.withBuiltins []) = cyclicForkElsewhere.checkStructure (Registry.withBuiltins []) ∧
      ∀ report, cyclicFork.checkForkJoin report = cyclicForkElsewhere.checkForkJoin report := by
  have first : cyclicFork.start? = some ⟨startName, .start ["split"]⟩ := rfl
  have other : cyclicForkElsewhere.start? = some ⟨startName, .start ["split"]⟩ := rfl
  have fork : cyclicFork.Meets "split" := .next (.start first) rfl rfl List.mem_cons_self
  have join : cyclicFork.Meets "close" := .next fork rfl rfl (by decide)
  have agree : ∀ name, cyclicFork.Meets name → cyclicFork.find? name = cyclicForkElsewhere.find? name := by
    intro name met
    have known : name ∈ [startName, "split", "again", "close", "gone"] := met.mem (by decide) (by decide)
    have same : ∀ name ∈ [startName, "split", "again", "close", "gone"], cyclicFork.find? name = cyclicForkElsewhere.find? name := by
      decide
    exact same name known
  exact ⟨first, other, .next join rfl rfl List.mem_cons_self, agree, checks_local first other agree _⟩

end WorkflowCompiler
