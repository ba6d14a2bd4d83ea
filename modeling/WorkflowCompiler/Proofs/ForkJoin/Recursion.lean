import WorkflowCompiler.Proofs.DepthFirst
import WorkflowCompiler.Proofs.ForkJoin.Balance

/-!
The walk over all paths as a recursion. A node is checked, what comes after it is
walked from left to right, and then the node undoes what it did to the forks and the
joins (`descend`). The walk that keeps a list of tasks, on which leaving a node waits
behind all that comes after it, ends on every graph, and it ends as the recursion does
(`Graph.checkForkJoin_recursive`): with the same fault, or with none.
-/
namespace WorkflowCompiler
namespace ForkJoin

/-- One turn of the walk takes the next task. -/
def turn (g : Graph) : State × List Task → Except Fault Unit ⊕ State × List Task
  | (_, []) => .inl (.ok ())
  | (s, .leave undo :: rest) => .inr (s.leave undo, rest)
  | (s, .visit v :: rest) =>
    match resolve g s v with
    | .error fault => .inl (.error fault)
    | .ok n =>
      match enter g s v n with
      | .error fault => .inl (.error fault)
      | .ok (visits, undo, inner) => .inr (inner, visits.map .visit ++ .leave undo :: rest)

mutual

/-- Walks a node and all that comes after it. -/
def descend (g : Graph) (s : State) (v : Visit) : Except Fault State :=
  match _found : resolve g s v with
  | .error fault => .error fault
  | .ok n =>
    let counts := v.clean && runsOnce n
    match if counts then s.recordVisit n.name v.decision else .ok s with
    | .error fault => .error fault
    | .ok noted => descendFrom g { noted with path := n.name :: s.path } n v.clean v.decision
termination_by (g.unvisited s.path, 0, 0)
decreasing_by
  obtain ⟨member, fresh⟩ := resolve_ok _found
  exact Prod.Lex.left _ _ (Graph.unvisited_cons_lt member fresh)

/-- Walks what comes after a node, and undoes what the node did to the forks and the joins. A target that a
    decision or a fork names again is walked once; an action leads to its ok node and to its error node. -/
def descendFrom (g : Graph) (s : State) (n : Node) (clean : Bool) (decision : Option String) :
    Except Fault State :=
  match n.body with
  | .start targets => descendAll g s [⟨targets.head?, clean, decision⟩]
  | .action ok error _ => descendAll g s [⟨some ok, clean, decision⟩, ⟨some error, false, decision⟩]
  | .decision _ targets =>
    descendAll g s ((distinct targets).map fun t => ⟨some t, clean, decision.or (some n.name)⟩)
  | .fork targets =>
    match repeatedTarget? g targets with
    | some t => .error (.duplicateForkTarget n.name t)
    | none =>
      (descendAll g { s with forks := n.name :: s.forks }
        ((distinct targets).map fun t => ⟨some t, clean, decision⟩)).map fun last =>
          { last with forks := last.forks.tail, joins := last.joins.tail }
  | .join targets =>
    match s.forks with
    | [] => .error (.joinWithoutFork n.name)
    | fork :: outer =>
      let joins := s.expectJoin n.name
      if joins.head? ≠ some n.name then .error (.joinMismatch fork n.name joins.head?)
      else
        let clean := clean && n.name ∉ s.passedJoins
        let passed := if clean then n.name :: s.passedJoins else s.passedJoins
        (descendAll g { s with forks := outer, joins := joins.tail, passedJoins := passed }
          [⟨targets.head?, clean, decision⟩]).map fun last =>
            { last with forks := fork :: last.forks, joins := n.name :: last.joins }
  | .kill .. => .ok s
  | .finish _ =>
    match s.forks with
    | [] => .ok s
    | fork :: _ => .error (.unjoinedEnd s.path.tail.head? fork n.name)
termination_by (g.unvisited s.path, 1, 0)

/-- Walks one node after the other, each with all that comes after it. -/
def descendAll (g : Graph) (s : State) (visits : List Visit) : Except Fault State :=
  match visits with
  | [] => .ok s
  | v :: rest =>
    match descend g s v with
    | .error fault => .error fault
    | .ok last => descendAll g { last with path := s.path } rest
termination_by (g.unvisited s.path, 0, visits.length + 1)

end

/-! ### Entering and leaving -/

/-- Undoes what a node did to the forks and the joins. -/
def State.revert (s : State) : Undo → State
  | .nothing => s
  | .closeFork => { s with forks := s.forks.tail, joins := s.joins.tail }
  | .reopenFork fork join => { s with forks := fork :: s.forks, joins := join :: s.joins }

theorem leave_eq (s : State) (undo : Undo) : s.leave undo = { s.revert undo with path := s.path.tail } := by
  cases undo <;> rfl

variable {g : Graph} {p : List Node} {s final : State} {v : Visit} {n : Node} {visits : List Visit}
  {entries : List Entry} {fault : Fault}

/-- What comes after a node is walked once the node was entered, and what it did is undone after that. -/
theorem descendFrom_eq (g : Graph) (s : State) (n : Node) (clean : Bool) (decision : Option String) :
    descendFrom g s n clean decision =
      match follow g s n clean decision with
      | .error fault => .error fault
      | .ok (visits, undo, inner) => (descendAll g inner visits).map fun last => last.revert undo := by
  have unchanged (result : Except Fault State) : result.map (fun last => last.revert .nothing) = result := by
    cases result <;> rfl
  have ends (s : State) : descendAll g s [] = .ok s := by rw [descendAll]
  unfold descendFrom follow
  cases n.body with
  | fork targets =>
    dsimp only
    cases repeatedTarget? g targets <;> rfl
  | join targets =>
    dsimp only
    cases s.forks with
    | nil => rfl
    | cons fork outer =>
      dsimp only
      split <;> rfl
  | finish _ =>
    dsimp only
    cases s.forks with
    | nil => simp only [ends, unchanged]
    | cons _ _ => rfl
  | kill _ _ => simp only [ends, unchanged]
  | _ => simp only [unchanged]

/-- Which nodes were visited does not depend on the path. -/
theorem recordVisit_path (s : State) (path : List String) (name : String) (decision : Option String) :
    { s with path }.recordVisit name decision =
      (s.recordVisit name decision).map fun noted => { noted with path } := by
  unfold State.recordVisit
  dsimp only
  split
  · rfl
  · split <;> rfl

theorem descend_eq (g : Graph) (s : State) (v : Visit) :
    descend g s v =
      match resolve g s v with
      | .error fault => .error fault
      | .ok n =>
        match enter g s v n with
        | .error fault => .error fault
        | .ok (visits, undo, inner) => (descendAll g inner visits).map fun last => last.revert undo := by
  conv => lhs; rw [descend]
  split
  · rename_i lost
    rw [lost]
  · rename_i n found
    rw [found]
    simp only [enter, recordVisit_path]
    by_cases counts : (v.clean && runsOnce n) = true
    · simp only [counts, ↓reduceIte]
      cases s.recordVisit n.name v.decision with
      | error fault => rfl
      | ok noted => exact descendFrom_eq ..
    · simp only [if_neg counts]
      exact descendFrom_eq ..

/-! ### The recursion and the tree of visits -/

theorem descendAll_cons {rest : List Visit} {inner : State} {undo : Undo} (found : resolve g s v = .ok n)
    (entered : enter g s v n = .ok (visits, undo, inner)) :
    descendAll g s (v :: rest) =
      match descendAll g inner visits with
      | .error fault => .error fault
      | .ok last => descendAll g { last.revert undo with path := s.path } rest := by
  rw [descendAll, descend_eq, found]
  dsimp only
  rw [entered]
  dsimp only
  cases descendAll g inner visits <;> rfl

/-- After a walk from a node the path is that of the node, and leaving it gives the path back. -/
theorem Walks.leave_eq {inner last : State} {undo : Undo} {below : List Entry} (found : resolve g s v = .ok n)
    (entered : enter g s v n = .ok (visits, undo, inner)) (inside : Walks g (n :: p) inner visits below last) :
    last.leave undo = { last.revert undo with path := s.path } := by
  rw [ForkJoin.leave_eq, inside.path, (enter_ok (resolve_ok found).1 entered).1, List.tail_cons]

theorem Walks.descendAll (walks : Walks g p s visits entries final) : descendAll g s visits = .ok final := by
  induction walks with
  | done => rw [ForkJoin.descendAll]
  | visit found entered inside _ ihInside ihOnward =>
    rw [descendAll_cons found entered, ihInside]
    dsimp only
    rw [← inside.leave_eq found entered, ihOnward]

theorem Fails.descendAll (fails : Fails g p s visits fault) : descendAll g s visits = .error fault := by
  induction fails with
  | lost lost => rw [ForkJoin.descendAll, descend_eq, lost]
  | refused found refused =>
    rw [ForkJoin.descendAll, descend_eq, found]
    dsimp only
    rw [refused]
  | inside found entered _ ih => rw [descendAll_cons found entered, ih]
  | onward found entered inside _ ih =>
    rw [descendAll_cons found entered, inside.descendAll]
    dsimp only
    rw [← inside.leave_eq found entered, ih]

/-- The walk over the tasks of one visit ends as the recursion from there does. -/
theorem run_eq_descend (g : Graph) (s : State) (v : Visit) :
    run g s [.visit v] = (descend g s v).map fun _ => () := by
  have alone : ForkJoin.descendAll g s [v] = (descend g s v).map fun last => { last with path := s.path } := by
    rw [ForkJoin.descendAll]
    cases descend g s v with
    | error fault => rfl
    | ok last => simp only [ForkJoin.descendAll, Except.map]
  rcases walks_or_fails g [] s [v] with ⟨entries, final, walks⟩ | ⟨fault, fails⟩
  · have walked := walks.descendAll
    rw [alone] at walked
    rw [run_visit_of_walks walks]
    cases descended : descend g s v with
    | ok last => rfl
    | error fault => rw [descended] at walked; cases walked
  · have failed := fails.descendAll
    rw [alone] at failed
    rw [run_visit_of_fails fails]
    cases descended : descend g s v with
    | ok last => rw [descended] at failed; cases failed
    | error other => rw [descended] at failed; cases failed; rfl

/-! ### The loop over the tasks -/

theorem run_turn (g : Graph) (t : State × List Task) :
    run g t.1 t.2 = (turn g t).elim id fun next => run g next.1 next.2 := by
  obtain ⟨s, tasks⟩ := t
  cases tasks with
  | nil => rw [run]; rfl
  | cons task rest =>
    cases task with
    | leave undo => rw [run_leave]; rfl
    | visit v =>
      simp only [run_visit, turn]
      cases resolve g s v with
      | error fault => rfl
      | ok n =>
        dsimp only
        cases enter g s v n <;> rfl

/-- Everything that a turn does after which the loop goes on. -/
inductive Proceeds (g : Graph) : State × List Task → State × List Task → Prop
  | leave {s : State} {undo : Undo} {rest : List Task} : Proceeds g (s, .leave undo :: rest) (s.leave undo, rest)
  | visit {s inner : State} {v : Visit} {n : Node} {visits : List Visit} {undo : Undo} {rest : List Task}
      (found : resolve g s v = .ok n) (entered : enter g s v n = .ok (visits, undo, inner)) :
      Proceeds g (s, .visit v :: rest) (inner, visits.map .visit ++ .leave undo :: rest)

theorem proceeds_of_turn {g : Graph} {t next : State × List Task} (took : turn g t = .inr next) : Proceeds g t next := by
  obtain ⟨s, tasks⟩ := t
  cases tasks with
  | nil => cases took
  | cons task rest =>
    cases task with
    | leave undo =>
      cases took
      exact .leave
    | visit v =>
      simp only [turn] at took
      split at took
      · cases took
      · rename_i n found
        split at took
        · cases took
        · rename_i visits undo inner entered
          cases took
          exact .visit found entered

theorem cost_turn (g : Graph) (t next : State × List Task) (took : turn g t = .inr next) :
    cost g next.2 next.1.path < cost g t.2 t.1.path := by
  cases proceeds_of_turn took with
  | leave =>
    simp only [path_leave, cost]
    omega
  | visit found entered =>
    obtain ⟨member, fresh⟩ := resolve_ok found
    obtain ⟨path, few⟩ := enter_ok member entered
    dsimp only
    rw [path]
    exact cost_enter_lt member fresh few

/-- How the recursion from the start node ends. -/
def descent (g : Graph) (start : Node) : Except Fault Unit :=
  (descend g {} ⟨some start.name, true, none⟩).map fun _ => ()

end ForkJoin

/-- On every graph with a start node the walk over the tasks ends, after no more tasks than there can be
    paths, and both it and the whole check end as the recursion from the start node does. -/
theorem Graph.checkForkJoin_recursive {g : Graph} {start : Node} (first : g.start? = some start)
    (report : StructureReport) :
    (∀ k, (ForkJoin.breadth g + 2) ^ g.size < k →
      loop (ForkJoin.turn g) k ({}, [.visit ⟨some start.name, true, none⟩]) = some (ForkJoin.descent g start)) ∧
      g.checkForkJoin report =
        if report.forks.length ≠ report.joins.length then
          .error (.unbalancedForks report.forks.length report.joins.length)
        else if report.forks.isEmpty then .ok ()
        else ForkJoin.descent g start := by
  have ends : ForkJoin.run g {} [.visit ⟨some start.name, true, none⟩] = ForkJoin.descent g start :=
    ForkJoin.run_eq_descend g {} ⟨some start.name, true, none⟩
  refine ⟨fun k enough => ?_, ?_⟩
  · have unseen : g.unvisited [] = g.size := by
      rw [Graph.unvisited, Graph.size, List.countP_eq_length]
      simp
    rw [← ends]
    refine loop_ends (ForkJoin.run_turn g) (ForkJoin.cost_turn g) (s := ({}, [.visit ⟨some start.name, true, none⟩])) ?_
    simp only [ForkJoin.cost, ForkJoin.visitCost, unseen]
    exact enough
  · simp only [Graph.checkForkJoin, Graph.start, first]
    rw [ends]

/-- The recursion stops where a branch comes back to its fork, before it comes to the join that leads nowhere. -/
theorem Graph.descent_cyclicFork :
    cyclicFork.start? = some ⟨startName, .start ["split"]⟩ ∧
      ForkJoin.descent cyclicFork ⟨startName, .start ["split"]⟩ =
        .error (.cycleOnPath "split" [startName, "split", "again", "split"]) ∧
      ∀ k, (ForkJoin.breadth cyclicFork + 2) ^ 4 < k →
        loop (ForkJoin.turn cyclicFork) k ({}, [.visit ⟨some startName, true, none⟩]) =
          some (.error (.cycleOnPath "split" [startName, "split", "again", "split"])) := by
  have first : cyclicFork.start? = some ⟨startName, .start ["split"]⟩ := rfl
  have stops : cyclicFork.checkForkJoin ⟨["split"], ["close"], 4⟩ =
      .error (.cycleOnPath "split" [startName, "split", "again", "split"]) := by decide +kernel
  obtain ⟨loops, recursion⟩ := checkForkJoin_recursive first ⟨["split"], ["close"], 4⟩
  have descends := recursion.symm.trans stops
  exact ⟨first, descends, fun k enough => (loops k enough).trans (congrArg some descends)⟩

end WorkflowCompiler
