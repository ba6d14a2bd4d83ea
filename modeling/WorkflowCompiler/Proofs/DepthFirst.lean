import Mathlib.Algebra.Order.BigOperators.Group.List
import WorkflowCompiler.Proofs.Loop
import WorkflowCompiler.Proofs.Structure

/-!
The structural walk as a recursion. A node is checked and counted where it is entered,
its transitions are followed from left to right, and it is done once all of them were
followed (`explore`). The walk that keeps the open nodes on a stack, each with the
transitions that are left, comes to the same report or the same first fault, and takes
no more turns than there are nodes and transitions (`Graph.checkStructure_depthFirst`).
-/
namespace WorkflowCompiler
namespace Structure

/-- One turn of the walk follows the next transition of the innermost open node, or leaves that node. -/
def turn (g : Graph) (r : Registry) (w : Walk) : Except Fault StructureReport ⊕ Walk :=
  match w.stack with
  | [] => .inl (.ok w.report)
  | ⟨n, []⟩ :: below => .inr { w with stack := below, done := n.name :: w.done }
  | ⟨n, t :: rest⟩ :: below =>
    match g.find? t with
    | none => .inl (.error (.danglingTransition (some n.name) (some t)))
    | some target =>
      if target.name ∈ w.openNames then
        .inl (.error (.cycleClosing target.name (cycleAt w.openNames target.name)))
      else if target.name ∈ w.done then .inr { w with stack := ⟨n, rest⟩ :: below }
      else
        match checkNode r target with
        | .error fault => .inl (.error fault)
        | .ok () => .inr (Walk.enter { w with stack := ⟨n, rest⟩ :: below } target)

/-- Everything that a turn does after which the walk goes on. -/
inductive Proceeds (g : Graph) (r : Registry) (w : Walk) : Walk → Prop
  | leave {n : Node} {below : List Frame} (top : w.stack = ⟨n, []⟩ :: below) :
      Proceeds g r w { w with stack := below, done := n.name :: w.done }
  | skip {n m : Node} {t : String} {rest : List String} {below : List Frame} (top : w.stack = ⟨n, t :: rest⟩ :: below)
      (found : g.find? t = some m) (isDone : m.name ∈ w.done) : Proceeds g r w { w with stack := ⟨n, rest⟩ :: below }
  | enter {n m : Node} {t : String} {rest : List String} {below : List Frame} (top : w.stack = ⟨n, t :: rest⟩ :: below)
      (found : g.find? t = some m) (notOpen : m.name ∉ w.openNames) (notDone : m.name ∉ w.done) (passes : checkNode r m = .ok ()) :
      Proceeds g r w (Walk.enter { w with stack := ⟨n, rest⟩ :: below } m)

theorem proceeds_of_turn {g : Graph} {r : Registry} {w next : Walk} (took : turn g r w = .inr next) : Proceeds g r w next := by
  unfold turn at took
  split at took
  · cases took
  · rename_i n below top
    cases took
    exact .leave top
  · rename_i n t rest below top
    split at took
    · cases took
    · rename_i m found
      split at took
      · cases took
      · rename_i notOpen
        split at took
        · rename_i isDone
          cases took
          exact .skip top found isDone
        · rename_i notDone
          split at took
          · cases took
          · rename_i passes
            cases took
            exact .enter top found notOpen notDone passes

/-- What a depth-first walk remembers: the names of the nodes that are done, and the report on all that it
    has entered. -/
structure Seen where
  done : List String := []
  report : StructureReport := {}

mutual

/-- Enters a node below those that are open, and walks all that it leads to. -/
def explore (g : Graph) (r : Registry) (above : List String) (seen : Seen) (n : Node) : Except Fault Seen :=
  match checkNode r n with
  | .error fault => .error fault
  | .ok () =>
    let entered : Seen := { seen with report := StructureReport.addNode seen.report n }
    if isTerminal n then .ok { entered with done := n.name :: entered.done }
    else
      (exploreAll g r above entered n n.transitions).map fun last => { last with done := n.name :: last.done }
termination_by (g.unvisited (n.name :: above), n.transitions.length + 1)

/-- Follows transitions of a node from left to right. Nodes that are done are not entered again. -/
def exploreAll (g : Graph) (r : Registry) (above : List String) (seen : Seen) (n : Node)
    (targets : List String) : Except Fault Seen :=
  match targets with
  | [] => .ok seen
  | t :: rest =>
    match _found : g.find? t with
    | none => .error (.danglingTransition (some n.name) (some t))
    | some m =>
      if _closing : m.name ∈ n.name :: above then
        .error (.cycleClosing m.name (cycleAt (n.name :: above) m.name))
      else if m.name ∈ seen.done then exploreAll g r above seen n rest
      else
        match explore g r (n.name :: above) seen m with
        | .error fault => .error fault
        | .ok seen => exploreAll g r above seen n rest
termination_by (g.unvisited (n.name :: above), targets.length)
decreasing_by
  · exact Prod.Lex.right _ (Nat.lt_succ_self _)
  · exact Prod.Lex.left _ _ (Graph.unvisited_cons_lt (Graph.mem_of_find? _found) _closing)
  · exact Prod.Lex.right _ (Nat.lt_succ_self _)

end

/-! ### The recursion and the stack -/

theorem exploreAll_nil (g : Graph) (r : Registry) (above : List String) (seen : Seen) (n : Node) :
    exploreAll g r above seen n [] = .ok seen := by
  rw [exploreAll]

theorem exploreAll_cons (g : Graph) (r : Registry) (above : List String) (seen : Seen) (n : Node) (t : String)
    (rest : List String) :
    exploreAll g r above seen n (t :: rest) =
      match g.find? t with
      | none => .error (.danglingTransition (some n.name) (some t))
      | some m =>
        if m.name ∈ n.name :: above then .error (.cycleClosing m.name (cycleAt (n.name :: above) m.name))
        else if m.name ∈ seen.done then exploreAll g r above seen n rest
        else explore g r (n.name :: above) seen m >>= fun last => exploreAll g r above last n rest := by
  conv => lhs; rw [exploreAll]
  split
  · rename_i missing
    rw [missing]
  · rename_i m found
    rw [found]
    simp only [dite_eq_ite]
    cases explore g r (n.name :: above) seen m <;> rfl

/-- A walk follows a transition as the recursion does. -/
private theorem walk_follow_bind (g : Graph) (r : Registry) (below : List Frame) (seen : Seen) (n : Node) (t : String)
    (rest : List String) :
    walk g r ⟨⟨n, t :: rest⟩ :: below, seen.done, seen.report⟩ =
      match g.find? t with
      | none => .error (.danglingTransition (some n.name) (some t))
      | some m =>
        if m.name ∈ n.name :: below.map (·.node.name) then
          .error (.cycleClosing m.name (cycleAt (n.name :: below.map (·.node.name)) m.name))
        else if m.name ∈ seen.done then walk g r ⟨⟨n, rest⟩ :: below, seen.done, seen.report⟩
        else checkNode r m >>= fun _ =>
          walk g r (Walk.enter ⟨⟨n, rest⟩ :: below, seen.done, seen.report⟩ m) := by
  rw [walk_follow]
  cases g.find? t with
  | none => rfl
  | some m =>
    dsimp only
    cases checkNode r m <;> rfl

/-- A walk whose innermost open node is explored next goes on with what the recursion has seen by then. -/
private theorem walk_eq_explore (g : Graph) (r : Registry) :
    (∀ above seen n, ∀ below : List Frame, below.map (·.node.name) = above →
      (checkNode r n >>= fun _ => walk g r (Walk.enter ⟨below, seen.done, seen.report⟩ n)) =
        (explore g r above seen n >>= fun last => walk g r ⟨below, last.done, last.report⟩)) ∧
    ∀ above seen n targets, ∀ below : List Frame, below.map (·.node.name) = above →
      walk g r ⟨⟨n, targets⟩ :: below, seen.done, seen.report⟩ =
        (exploreAll g r above seen n targets >>= fun last => walk g r ⟨below, n.name :: last.done, last.report⟩) := by
  refine explore.mutual_induct g r _ _ ?refused ?terminal ?going ?finished ?dangling ?cycle ?known ?fails ?explored
  case refused =>
    intro above seen n fault refused below names
    rw [explore, refused]
    rfl
  case terminal =>
    intro above seen n passes ends below names
    rw [explore, passes]
    simp only [ends, ↓reduceIte, Walk.enter]
    rfl
  case going =>
    intro above seen n passes entered going ih below names
    have later := ih below names
    rw [explore, passes]
    simp only [Walk.enter, going, Bool.false_eq_true, ↓reduceIte]
    change walk g r ⟨⟨n, n.transitions⟩ :: below, entered.done, entered.report⟩ = _
    rw [later]
    cases exploreAll g r above entered n n.transitions <;> rfl
  case finished =>
    intro above seen n below names
    rw [exploreAll_nil, walk_leave]
    rfl
  case dangling =>
    intro above seen n t rest missing below names
    rw [walk_follow_bind, exploreAll_cons, missing]
    rfl
  case cycle =>
    intro above seen n t rest m found closing below names
    rw [walk_follow_bind, exploreAll_cons, found, names]
    simp only [if_pos closing]
    rfl
  case known =>
    intro above seen n t rest m found apart isDone ih below names
    rw [walk_follow_bind, exploreAll_cons, found, names]
    simp only [if_neg apart, if_pos isDone]
    exact ih below names
  case fails =>
    intro above seen n t rest m found apart fresh fault failed ih below names
    rw [walk_follow_bind, exploreAll_cons, found, names]
    simp only [if_neg apart, if_neg fresh]
    rw [ih (⟨n, rest⟩ :: below) (by rw [List.map_cons, names]), failed]
    rfl
  case explored =>
    intro above seen n t rest m found apart fresh last explored ih ihRest below names
    rw [walk_follow_bind, exploreAll_cons, found, names]
    simp only [if_neg apart, if_neg fresh]
    rw [ih (⟨n, rest⟩ :: below) (by rw [List.map_cons, names]), explored]
    exact ihRest below names

/-! ### The turns of the loop -/

theorem walk_turn (g : Graph) (r : Registry) (w : Walk) : walk g r w = (turn g r w).elim id (walk g r) := by
  obtain ⟨stack, done, report⟩ := w
  cases stack with
  | nil => rw [walk_nil]; rfl
  | cons f below =>
    obtain ⟨n, targets⟩ := f
    cases targets with
    | nil => rw [walk_leave]; rfl
    | cons t rest =>
      simp only [walk_follow, turn, Walk.openNames, List.map_cons]
      cases g.find? t with
      | none => rfl
      | some m =>
        dsimp only
        split
        · rfl
        · split
          · rfl
          · cases checkNode r m <;> rfl

/-- The nodes with a name that was not seen, and their transitions, counted. -/
def unexplored (g : Graph) (seen : List String) : Nat :=
  (g.nodes.map fun n => if n.name ∈ seen then 0 else n.transitions.length + 1).sum

/-- How many turns a walk can still take. -/
def remaining (g : Graph) (w : Walk) : Nat := pending w.stack + unexplored g w.seen

theorem unexplored_congr {g : Graph} {a b : List String} (same : ∀ x, x ∈ a ↔ x ∈ b) :
    unexplored g a = unexplored g b := by
  simp only [unexplored, same]

theorem unexplored_enter {g : Graph} {n : Node} {seen : List String} (member : n ∈ g.nodes) (fresh : n.name ∉ seen) :
    unexplored g (n.name :: seen) + (n.transitions.length + 1) ≤ unexplored g seen := by
  have fewer (m : Node) : (if m.name ∈ n.name :: seen then 0 else m.transitions.length + 1) ≤
      if m.name ∈ seen then 0 else m.transitions.length + 1 := by
    split
    · exact Nat.zero_le _
    · rename_i unseen
      rw [if_neg fun old => unseen (List.mem_cons_of_mem _ old)]
  unfold unexplored
  generalize g.nodes = nodes at member ⊢
  induction nodes with
  | nil => cases member
  | cons m nodes ih =>
    simp only [List.map_cons, List.sum_cons]
    rcases List.mem_cons.mp member with rfl | member
    · have others := List.sum_le_sum (l := nodes) fun m _ => fewer m
      rw [if_pos (List.mem_cons_self ..), if_neg fresh]
      omega
    · have others := ih member
      have here := fewer m
      omega

/-- Entering a node takes as much from what is unexplored as it leaves to follow. -/
theorem remaining_enter {g : Graph} {w : Walk} {n : Node} (member : n ∈ g.nodes) (fresh : n.name ∉ w.seen) :
    remaining g (w.enter n) ≤ remaining g w := by
  have less := unexplored_enter member fresh
  have same : unexplored g (w.enter n).seen = unexplored g (n.name :: w.seen) := by
    apply unexplored_congr
    intro x
    unfold Walk.enter Walk.seen Walk.openNames
    split
    · simp only [List.mem_append, List.mem_cons]
      tauto
    · simp
  have more : pending (w.enter n).stack ≤ pending w.stack + (n.transitions.length + 1) := by
    unfold Walk.enter
    split
    · exact Nat.le_add_right _ _
    · simp only [pending, List.foldr_cons]
      omega
  unfold remaining
  omega

theorem remaining_follow {g : Graph} {w : Walk} {n : Node} {t : String} {rest : List String} {below : List Frame}
    (top : w.stack = ⟨n, t :: rest⟩ :: below) : remaining g { w with stack := ⟨n, rest⟩ :: below } < remaining g w := by
  simp only [remaining, pending, Walk.seen, Walk.openNames, top, List.map_cons, List.foldr_cons, List.length_cons]
  omega

theorem remaining_turn (g : Graph) (r : Registry) (w next : Walk) (took : turn g r w = .inr next) :
    remaining g next < remaining g w := by
  cases proceeds_of_turn took with
  | @leave n below top =>
    have same : unexplored g (Walk.seen { w with stack := below, done := n.name :: w.done }) = unexplored g w.seen := by
      apply unexplored_congr
      intro x
      simp only [Walk.seen, Walk.openNames, top, List.map_cons, List.mem_append, List.mem_cons]
      tauto
    simp only [remaining, same, pending, top, List.foldr_cons, List.length_nil]
    omega
  | skip top => exact remaining_follow top
  | @enter n m t rest below top found notOpen notDone =>
    have seen : Walk.seen { w with stack := ⟨n, rest⟩ :: below } = w.seen := by
      simp only [Walk.seen, Walk.openNames, top, List.map_cons]
    have entered := remaining_enter (w := { w with stack := ⟨n, rest⟩ :: below }) (Graph.mem_of_find? found)
      (seen ▸ List.not_mem_append notOpen notDone)
    exact Nat.lt_of_le_of_lt entered (remaining_follow top)

end Structure

/-- The recursive walk from the start node finds what the walk with a stack finds, and this takes no more turns
    than there are nodes and transitions. -/
theorem Graph.checkStructure_depthFirst {g : Graph} {start : Node} (first : g.start? = some start) (r : Registry) :
    g.checkStructure r = (Structure.explore g r [] {} start).map Structure.Seen.report ∧
      (Structure.checkNode r start = .ok () →
        ∀ k, (g.nodes.map fun n => n.transitions.length + 1).sum < k →
          loop (Structure.turn g r) k (Structure.Walk.enter ⟨[], [], {}⟩ start) = some (g.checkStructure r)) := by
  have stages : g.checkStructure r =
      (Structure.checkNode r start >>= fun _ => Structure.walk g r (Structure.Walk.enter ⟨[], [], {}⟩ start)) := by
    simp only [Graph.checkStructure, Graph.start, first]
    cases Structure.checkNode r start <;> rfl
  refine ⟨?_, fun passes k enough => ?_⟩
  · rw [stages, (Structure.walk_eq_explore g r).1 [] {} start [] rfl]
    cases Structure.explore g r [] {} start with
    | error fault => rfl
    | ok last => exact Structure.walk_nil g r last.done last.report
  · rw [stages, passes]
    refine loop_ends (Structure.walk_turn g r) (Structure.remaining_turn g r) (Nat.lt_of_le_of_lt ?_ enough)
    have entered := Structure.remaining_enter (w := ⟨[], [], {}⟩) (Graph.mem_of_start? first) List.not_mem_nil
    simpa [Structure.remaining, Structure.pending, Structure.unexplored, Structure.Walk.seen,
      Structure.Walk.openNames] using entered

/-- The outcome of the turns from the start node on is that of the walk. -/
theorem Graph.checkStructure_of_turns {g : Graph} {start : Node} {r : Registry} {outcome : Except Fault StructureReport}
    (first : g.start? = some start) (passes : Structure.checkNode r start = .ok ()) {k : Nat}
    (ended : loop (Structure.turn g r) k (Structure.Walk.enter ⟨[], [], {}⟩ start) = some outcome) :
    g.checkStructure r = outcome := by
  simp only [checkStructure, Graph.start, first, passes]
  exact outcome_of_loop (Structure.walk_turn g r) ended

/-- A fork with a branch that leads back to it, and a join that leads nowhere. -/
def Graph.cyclicFork : Graph where
  name := "cyclic"
  nodes :=
    [⟨startName, .start ["split"]⟩, ⟨"split", .fork ["again", "close"]⟩, ⟨"again", .decision "<switch/>" ["split"]⟩,
      ⟨"close", .join ["gone"]⟩]
  distinct := by decide

/-- The walk meets the cycle first; it takes no more than the nine turns that four nodes and five
    transitions allow. -/
theorem Graph.checkStructure_cyclicFork :
    cyclicFork.start? = some ⟨startName, .start ["split"]⟩ ∧
      Structure.checkNode (Registry.withBuiltins []) ⟨startName, .start ["split"]⟩ = .ok () ∧
      (Structure.explore cyclicFork (Registry.withBuiltins []) [] {} ⟨startName, .start ["split"]⟩).map
        Structure.Seen.report = .error (.cycleClosing "split" ["split", "again", "split"]) ∧
      loop (Structure.turn cyclicFork (Registry.withBuiltins [])) 10
        (Structure.Walk.enter ⟨[], [], {}⟩ ⟨startName, .start ["split"]⟩) =
          some (.error (.cycleClosing "split" ["split", "again", "split"])) := by
  have first : cyclicFork.start? = some ⟨startName, .start ["split"]⟩ := rfl
  have passes : Structure.checkNode (Registry.withBuiltins []) ⟨startName, .start ["split"]⟩ = .ok () := rfl
  have stops : cyclicFork.checkStructure (Registry.withBuiltins []) =
      .error (.cycleClosing "split" ["split", "again", "split"]) :=
    checkStructure_of_turns first passes (k := 10) (by decide +kernel)
  obtain ⟨recursion, turns⟩ := checkStructure_depthFirst first (Registry.withBuiltins [])
  exact ⟨first, passes, recursion.symm.trans stops, (turns passes 10 (by decide)).trans (congrArg some stops)⟩

end WorkflowCompiler
