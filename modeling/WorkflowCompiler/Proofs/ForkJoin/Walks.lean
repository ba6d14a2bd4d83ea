import WorkflowCompiler.Graph.ForkJoin
import WorkflowCompiler.Proofs.Trail

/-!
The walk over all paths, as a tree of visits instead of a list of tasks. `Walks`
holds where every visit of a list succeeds, with the nodes that were entered in
order, and `Fails` where one of them meets a fault; every run does one or the
other (`run_of_walks`, `run_of_fails`, `walks_or_fails`). What entering a node
does is said once (`enter_cases`), and from it follows what the state is at every
moment: the names on the path are those of a trail, and the forks of the state
are the forks that are open on it (`At`).
-/
namespace WorkflowCompiler.ForkJoin

/-- A node that was entered, with the trail and the state before it. -/
structure Entry where
  node : Node
  trail : List Node
  state : State
  visit : Visit

/-- All visits that go on from a trail succeed, one after the other. The entries are in the order
    in which the nodes were entered. -/
inductive Walks (g : Graph) : List Node → State → List Visit → List Entry → State → Prop
  | done {p : List Node} {s : State} : Walks g p s [] [] s
  | visit {p : List Node} {s inner last final : State} {v : Visit} {visits rest : List Visit} {n : Node}
      {undo : Undo} {below after : List Entry} (found : resolve g s v = .ok n)
      (entered : enter g s v n = .ok (visits, undo, inner)) (inside : Walks g (n :: p) inner visits below last)
      (onward : Walks g p (last.leave undo) rest after final) :
      Walks g p s (v :: rest) (⟨n, p, s, v⟩ :: (below ++ after)) final

/-- One of the visits that go on from a trail meets a fault. -/
inductive Fails (g : Graph) : List Node → State → List Visit → Fault → Prop
  | lost {p : List Node} {s : State} {v : Visit} {rest : List Visit} {fault : Fault}
      (lost : resolve g s v = .error fault) : Fails g p s (v :: rest) fault
  | refused {p : List Node} {s : State} {v : Visit} {rest : List Visit} {n : Node} {fault : Fault}
      (found : resolve g s v = .ok n) (refused : enter g s v n = .error fault) :
      Fails g p s (v :: rest) fault
  | inside {p : List Node} {s inner : State} {v : Visit} {visits rest : List Visit} {n : Node} {undo : Undo}
      {fault : Fault} (found : resolve g s v = .ok n) (entered : enter g s v n = .ok (visits, undo, inner))
      (inside : Fails g (n :: p) inner visits fault) : Fails g p s (v :: rest) fault
  | onward {p : List Node} {s inner last : State} {v : Visit} {visits rest : List Visit} {n : Node}
      {undo : Undo} {below : List Entry} {fault : Fault} (found : resolve g s v = .ok n)
      (entered : enter g s v n = .ok (visits, undo, inner)) (inside : Walks g (n :: p) inner visits below last)
      (onward : Fails g p (last.leave undo) rest fault) : Fails g p s (v :: rest) fault

theorem mem_entries {e first : Entry} {below after : List Entry} (member : e ∈ first :: (below ++ after)) :
    e = first ∨ e ∈ below ∨ e ∈ after := by
  simpa using member

variable {g : Graph} {p : List Node} {s inner last final : State} {v : Visit} {n : Node} {visits : List Visit}
  {undo : Undo} {entries below : List Entry} {fault : Fault}

/-! ### Runs -/

theorem path_leave (s : State) (undo : Undo) : (s.leave undo).path = s.path.tail := by
  cases undo <;> rfl

theorem Walks.path (walks : Walks g p s visits entries final) : final.path = s.path := by
  induction walks with
  | done => rfl
  | visit found entered _ _ inner onward =>
    rw [onward, path_leave, inner, (enter_ok (resolve_ok found).1 entered).1, List.tail_cons]

theorem run_leave (g : Graph) (s : State) (undo : Undo) (rest : List Task) :
    run g s (.leave undo :: rest) = run g (s.leave undo) rest := by
  rw [run]

theorem run_visit (g : Graph) (s : State) (v : Visit) (rest : List Task) :
    run g s (.visit v :: rest) =
      match resolve g s v with
      | .error fault => .error fault
      | .ok n =>
        match enter g s v n with
        | .error fault => .error fault
        | .ok (visits, undo, inner) => run g inner (visits.map .visit ++ .leave undo :: rest) := by
  conv => lhs; rw [run]
  split
  · rename_i lost
    rw [lost]
  · rename_i n found
    rw [found]
    dsimp only
    split
    · rename_i refused
      rw [refused]
    · rename_i entered
      rw [entered]

theorem run_of_walks (walks : Walks g p s visits entries final) (rest : List Task) :
    run g s (visits.map .visit ++ rest) = run g final rest := by
  induction walks generalizing rest with
  | done => rfl
  | visit found entered _ _ inner onward =>
    simp only [List.map_cons, List.cons_append, run_visit, found, entered, inner, run_leave, onward]

theorem run_of_fails (fails : Fails g p s visits fault) (rest : List Task) :
    run g s (visits.map .visit ++ rest) = .error fault := by
  induction fails generalizing rest with
  | lost lost =>
    simp only [List.map_cons, List.cons_append, run_visit, lost]
  | refused found refused =>
    simp only [List.map_cons, List.cons_append, run_visit, found, refused]
  | inside found entered _ ih =>
    simp only [List.map_cons, List.cons_append, run_visit, found, entered, ih]
  | onward found entered inside _ ih =>
    simp only [List.map_cons, List.cons_append, run_visit, found, entered, run_of_walks inside, run_leave, ih]

theorem run_visit_of_walks (walks : Walks g p s [v] entries final) : run g s [.visit v] = .ok () := by
  have passed := run_of_walks walks []
  rwa [run, List.append_nil] at passed

theorem run_visit_of_fails (fails : Fails g p s [v] fault) : run g s [.visit v] = .error fault := by
  have failed := run_of_fails fails []
  rwa [List.append_nil] at failed

/-- The visits of a list all succeed, or one of them meets a fault. -/
theorem walks_or_fails (g : Graph) (p : List Node) (s : State) (visits : List Visit) :
    (∃ entries final, Walks g p s visits entries final) ∨ ∃ fault, Fails g p s visits fault := by
  -- The cost of the visits falls both into a node and past it, since leaving restores the path.
  induction cost : cost g (visits.map .visit) s.path using Nat.strongRecOn generalizing p s visits with
  | ind bound ih =>
    subst cost
    cases visits with
    | nil => exact .inl ⟨[], s, .done⟩
    | cons v rest =>
      cases found : resolve g s v with
      | error fault => exact .inr ⟨fault, .lost found⟩
      | ok n =>
        cases entered : enter g s v n with
        | error fault => exact .inr ⟨fault, .refused found entered⟩
        | ok result =>
          obtain ⟨visits, undo, inner⟩ := result
          obtain ⟨member, fresh⟩ := resolve_ok found
          obtain ⟨path, few⟩ := enter_ok member entered
          have less : ForkJoin.cost g (visits.map .visit) inner.path <
              ForkJoin.cost g ((v :: rest).map .visit) s.path := by
            have lt : ForkJoin.cost g (visits.map .visit ++ .leave undo :: rest.map .visit) (n.name :: s.path) <
                ForkJoin.cost g (.visit v :: rest.map .visit) s.path := cost_enter_lt member fresh few
            rw [cost_visits] at lt
            have eq := cost_visits g visits [] inner.path
            rw [List.append_nil] at eq
            rw [eq, path]
            simp only [ForkJoin.cost, List.map_cons] at lt ⊢
            omega
          rcases ih _ less (n :: p) inner visits rfl with ⟨below, last, inside⟩ | ⟨fault, inside⟩
          · have back : (last.leave undo).path = s.path := by
              rw [path_leave, inside.path, path, List.tail_cons]
            have less : ForkJoin.cost g (rest.map .visit) (last.leave undo).path <
                ForkJoin.cost g ((v :: rest).map .visit) s.path := by
              rw [back]
              have := visitCost_pos g s.path
              simp only [ForkJoin.cost, List.map_cons]
              omega
            rcases ih _ less p (last.leave undo) rest rfl with ⟨after, final, onward⟩ | ⟨fault, onward⟩
            · exact .inl ⟨_, final, .visit found entered inside onward⟩
            · exact .inr ⟨fault, .onward found entered inside onward⟩
          · exact .inr ⟨fault, .inside found entered inside⟩

/-! ### Entering a node -/

/-- The transitions that the walk follows out of a node, and whether they are taken without an error. -/
def exits (n : Node) : List (Option String × Bool) :=
  match n.body with
  | .start targets => [(targets.head?, true)]
  | .finish _ => []
  | .kill .. => []
  | .action ok error _ => [(some ok, true), (some error, false)]
  | .decision _ targets => (distinct targets).map fun t => (some t, true)
  | .fork targets => (distinct targets).map fun t => (some t, true)
  | .join targets => [(targets.head?, true)]

/-- Whether what comes after a node is still clean: a join that was passed before ends that. -/
def staysClean (s : State) (n : Node) (clean : Bool) : Bool :=
  clean && !(n.kind == .join && decide (n.name ∈ s.passedJoins))

/-- The first decision on the way, after one more node. -/
def decisionAfter (n : Node) (decision : Option String) : Option String :=
  if n.kind = .decision then decision.or (some n.name) else decision

/-- What becomes of the clean visits when a node is entered. -/
inductive Marks (s : State) (v : Visit) (n : Node) : List (String × Option String) → Prop
  /-- The visit is not clean, or the node may run more than once. -/
  | skipped (exempt : ¬ (v.clean = true ∧ runsOnce n = true)) : Marks s v n s.cleanVisits
  | first (clean : v.clean = true) (once : runsOnce n = true) (fresh : s.cleanVisits.lookup n.name = none) :
      Marks s v n ((n.name, v.decision) :: s.cleanVisits)
  /-- Both visits have the same first decision. -/
  | again (clean : v.clean = true) (once : runsOnce n = true) {d : String}
      (earlier : s.cleanVisits.lookup n.name = some (some d)) (same : v.decision = some d) :
      Marks s v n s.cleanVisits

/-- What becomes of the forks and joins when a node is entered, and what undoes it. -/
inductive Shifts (s : State) (n : Node) (clean : Bool) : Undo → State → Prop
  | plain (notFork : n.kind ≠ .fork) (notJoin : n.kind ≠ .join) (ends : n.kind = .finish → s.forks = []) :
      Shifts s n clean .nothing s
  | fork (isFork : n.kind = .fork) : Shifts s n clean .closeFork { s with forks := n.name :: s.forks }
  | join (isJoin : n.kind = .join) {f : String} {outer : List String} (opened : s.forks = f :: outer)
      (expected : (s.expectJoin n.name).head? = some n.name) :
      Shifts s n clean (.reopenFork f n.name)
        { s with
          forks := outer
          joins := (s.expectJoin n.name).tail
          passedJoins := if staysClean s n clean then n.name :: s.passedJoins else s.passedJoins }

theorem follow_cases {clean : Bool} {decision : Option String}
    (followed : follow g s n clean decision = .ok (visits, undo, inner)) : Shifts s n clean undo inner ∧
      visits = (exits n).map fun e => ⟨e.1, staysClean s n clean && e.2, decisionAfter n decision⟩ := by
  unfold follow at followed
  split at followed
  · rename_i targets body
    have kind : n.kind = .start := by simp [Node.kind, body]
    cases followed
    exact ⟨.plain (by simp [kind]) (by simp [kind]) (by simp [kind]), by
      simp [exits, body, staysClean, decisionAfter, kind]⟩
  · rename_i ok error spec body
    have kind : n.kind = .action := by simp [Node.kind, body]
    cases followed
    exact ⟨.plain (by simp [kind]) (by simp [kind]) (by simp [kind]), by
      simp [exits, body, staysClean, decisionAfter, kind]⟩
  · rename_i switch targets body
    have kind : n.kind = .decision := by simp [Node.kind, body]
    cases followed
    exact ⟨.plain (by simp [kind]) (by simp [kind]) (by simp [kind]), by
      simp [exits, body, staysClean, decisionAfter, kind]⟩
  · rename_i targets body
    have kind : n.kind = .fork := by simp [Node.kind, body]
    split at followed
    · cases followed
    · cases followed
      exact ⟨.fork kind, by simp [exits, body, staysClean, decisionAfter, kind]⟩
  · rename_i targets body
    have kind : n.kind = .join := by simp [Node.kind, body]
    split at followed
    · cases followed
    · rename_i f outer opened
      dsimp only at followed
      split at followed
      · cases followed
      · rename_i expected
        have still : (clean && decide (n.name ∉ s.passedJoins)) = staysClean s n clean := by
          simp [staysClean, kind]
        rw [still] at followed
        cases followed
        exact ⟨.join kind opened (by simpa using expected), by simp [exits, body, decisionAfter, kind]⟩
  · rename_i message targets body
    have kind : n.kind = .kill := by simp [Node.kind, body]
    cases followed
    exact ⟨.plain (by simp [kind]) (by simp [kind]) (by simp [kind]), by simp [exits, body]⟩
  · rename_i targets body
    have kind : n.kind = .finish := by simp [Node.kind, body]
    split at followed
    · rename_i none
      cases followed
      exact ⟨.plain (by simp [kind]) (by simp [kind]) fun _ => none, by simp [exits, body]⟩
    · cases followed

theorem recordVisit_cases {s after : State} (clean : v.clean = true) (once : runsOnce n = true)
    (recorded : s.recordVisit n.name v.decision = .ok after) :
    ∃ marks, Marks s v n marks ∧ after = { s with cleanVisits := marks } := by
  unfold State.recordVisit at recorded
  split at recorded
  · rename_i fresh
    cases recorded
    exact ⟨_, .first clean once fresh, rfl⟩
  · rename_i earlier found
    split at recorded
    · cases recorded
    · rename_i agree
      simp only [not_or, ne_eq, not_not] at agree
      obtain ⟨someEarlier, someDecision, same⟩ := agree
      cases recorded
      obtain ⟨d, rfl⟩ := Option.ne_none_iff_exists'.mp someEarlier
      exact ⟨_, .again clean once found same.symm, rfl⟩

/-- Everything that entering a node does. -/
theorem enter_cases (entered : enter g s v n = .ok (visits, undo, inner)) : ∃ marks, Marks s v n marks ∧
      Shifts { s with path := n.name :: s.path, cleanVisits := marks } n v.clean undo inner ∧
      visits = (exits n).map fun e => ⟨e.1, staysClean s n v.clean && e.2, decisionAfter n v.decision⟩ := by
  unfold enter at entered
  dsimp only at entered
  split at entered
  · rename_i counts
    obtain ⟨clean, once⟩ := (Bool.and_eq_true _ _).mp counts
    split at entered
    · cases entered
    · rename_i after recorded
      obtain ⟨marks, marked, rfl⟩ := recordVisit_cases clean once recorded
      obtain ⟨shifts, exits⟩ := follow_cases entered
      refine ⟨marks, ?_, shifts, exits⟩
      cases marked with
      | skipped exempt => exact .skipped exempt
      | first clean once fresh => exact .first clean once fresh
      | again clean once earlier same => exact .again clean once earlier same
  · rename_i exempt
    obtain ⟨shifts, exits⟩ := follow_cases entered
    exact ⟨s.cleanVisits, .skipped (by simpa using exempt), shifts, exits⟩

theorem mem_distinctAfter {seen names : List String} {t : String} :
    t ∈ distinctAfter seen names ↔ t ∈ names ∧ t ∉ seen := by
  induction names generalizing seen with
  | nil => simp [distinctAfter]
  | cons u names ih =>
    unfold distinctAfter
    split
    · rename_i known
      rw [ih, List.mem_cons]
      constructor
      · exact fun ⟨member, fresh⟩ => ⟨.inr member, fresh⟩
      · rintro ⟨rfl | member, fresh⟩
        · exact absurd known fresh
        · exact ⟨member, fresh⟩
    · rename_i fresh
      rw [List.mem_cons, ih, List.mem_cons, List.mem_cons]
      constructor
      · rintro (rfl | ⟨member, other⟩)
        · exact ⟨.inl rfl, fresh⟩
        · exact ⟨.inr member, fun known => other (.inr known)⟩
      · rintro ⟨rfl | member, other⟩
        · exact .inl rfl
        · by_cases same : t = u
          · exact .inl same
          · exact .inr ⟨member, fun known => known.elim same other⟩

theorem mem_distinct {names : List String} {t : String} : t ∈ distinct names ↔ t ∈ names := by
  simp [distinct, mem_distinctAfter]

/-- The walk follows transitions only, and counts as free of errors only those of success. -/
theorem transition_of_exit {t : String} {ok : Bool} (leaves : (some t, ok) ∈ exits n) :
    Structure.isTerminal n = false ∧ t ∈ n.transitions ∧ (ok = true → t ∈ n.successTransitions) := by
  cases body : n.body with
  | start targets =>
    simp only [exits, body, List.mem_singleton, Prod.mk.injEq] at leaves
    have member := List.mem_of_mem_head? (Option.mem_def.mpr leaves.1.symm)
    simp [Structure.isTerminal, Node.kind, Node.transitions, Node.successTransitions, body, member]
  | join targets =>
    simp only [exits, body, List.mem_singleton, Prod.mk.injEq] at leaves
    have member := List.mem_of_mem_head? (Option.mem_def.mpr leaves.1.symm)
    simp [Structure.isTerminal, Node.kind, Node.transitions, Node.successTransitions, body, member]
  | action ok' error spec =>
    simp only [exits, body, List.mem_cons, List.not_mem_nil, or_false, Prod.mk.injEq, Option.some.injEq] at leaves
    rcases leaves with ⟨rfl, rfl⟩ | ⟨rfl, rfl⟩ <;>
      simp [Structure.isTerminal, Node.kind, Node.transitions, Node.successTransitions, body]
  | decision switch targets =>
    simp only [exits, body, List.mem_map, mem_distinct, Prod.mk.injEq, Option.some.injEq] at leaves
    obtain ⟨_, member, rfl, rfl⟩ := leaves
    simp [Structure.isTerminal, Node.kind, Node.transitions, Node.successTransitions, body, member]
  | fork targets =>
    simp only [exits, body, List.mem_map, mem_distinct, Prod.mk.injEq, Option.some.injEq] at leaves
    obtain ⟨_, member, rfl, rfl⟩ := leaves
    simp [Structure.isTerminal, Node.kind, Node.transitions, Node.successTransitions, body, member]
  | _ => simp [exits, body] at leaves

/-- With one transition out of start and join nodes, the walk follows every transition. -/
theorem exit_of_transition (single : g.SingleExit) (member : n ∈ g.nodes) (going : Structure.isTerminal n = false)
    {t : String} :
    (t ∈ n.transitions → ∃ ok, (some t, ok) ∈ exits n) ∧ (t ∈ n.successTransitions → (some t, true) ∈ exits n) := by
  have one (kind : n.kind = .start ∨ n.kind = .join) (transition : t ∈ n.transitions) :
      n.transitions.head? = some t := by
    obtain ⟨u, only⟩ := List.length_eq_one_iff.mp (single n member kind)
    rw [only] at transition ⊢
    rw [List.mem_singleton.mp transition, List.head?_cons]
  cases body : n.body with
  | start targets =>
    have one := one (.inl (by simp [Node.kind, body]))
    simp only [Node.transitions, Node.successTransitions, body, exits] at one ⊢
    exact ⟨fun transition => ⟨true, by simp [one transition]⟩, fun transition => by simp [one transition]⟩
  | join targets =>
    have one := one (.inr (by simp [Node.kind, body]))
    simp only [Node.transitions, Node.successTransitions, body, exits] at one ⊢
    exact ⟨fun transition => ⟨true, by simp [one transition]⟩, fun transition => by simp [one transition]⟩
  | action ok error spec =>
    refine ⟨fun transition => ?_, fun transition => ?_⟩
    · simp only [Node.transitions, body, List.mem_cons, List.not_mem_nil, or_false] at transition
      rcases transition with rfl | rfl
      · exact ⟨true, by simp [exits, body]⟩
      · exact ⟨false, by simp [exits, body]⟩
    · simp only [Node.successTransitions, body, List.mem_singleton] at transition
      simp [exits, body, transition]
  | decision switch targets =>
    simp only [Node.transitions, Node.successTransitions, exits, body, List.mem_map, mem_distinct]
    exact ⟨fun transition => ⟨true, t, transition, rfl⟩, fun transition => ⟨t, transition, rfl⟩⟩
  | fork targets =>
    simp only [Node.transitions, Node.successTransitions, exits, body, List.mem_map, mem_distinct]
    exact ⟨fun transition => ⟨true, t, transition, rfl⟩, fun transition => ⟨t, transition, rfl⟩⟩
  | _ => simp [Structure.isTerminal, Node.kind, body] at going

/-! ### States and trails -/

/-- The first decision of a trail. -/
def firstDecision : List Node → Option String
  | [] => none
  | n :: p => decisionAfter n (firstDecision p)

/-- The state of a walk that has come along a trail. -/
structure At (s : State) (p : List Node) : Prop where
  path : s.path = p.map Node.name
  forks : s.forks = (openForks p).map Node.name
  nested : strayJoins p = 0

/-- A visit that goes on from a trail. -/
structure Visit.Continues (g : Graph) (p : List Node) (v : Visit) : Prop where
  leads : ∀ n, v.target.bind g.find? = some n → g.Trail g.Leads (n :: p)
  clean : v.clean = true → ∀ n, v.target.bind g.find? = some n → g.Trail g.Succeeds (n :: p)
  decision : v.decision = firstDecision p

theorem target_of_resolve (found : resolve g s v = .ok n) : v.target.bind g.find? = some n := by
  unfold resolve at found
  split at found
  · cases found
  · rename_i m target
    split at found
    · cases found
    · cases found
      exact target

theorem staysClean_le {clean : Bool} (still : staysClean s n clean = true) : clean = true := by
  simp only [staysClean, Bool.and_eq_true] at still
  exact still.1

/-- What comes after a node goes on from the trail that ends there. -/
theorem continues_of_enter (along : v.Continues g p) (found : resolve g s v = .ok n)
    (entered : enter g s v n = .ok (visits, undo, inner)) : ∀ w ∈ visits, w.Continues g (n :: p) := by
  have target := target_of_resolve found
  obtain ⟨_, _, _, rfl⟩ := enter_cases entered
  intro w later
  obtain ⟨⟨name, ok⟩, leaves, rfl⟩ := List.mem_map.mp later
  refine ⟨?_, ?_, ?_⟩
  · intro m arrives
    obtain ⟨t, rfl, foundM⟩ := Option.bind_eq_some_iff.mp arrives
    obtain ⟨going, transition, _⟩ := transition_of_exit leaves
    exact .next (along.leads n target) ⟨going, t, transition, foundM⟩
  · intro still m arrives
    obtain ⟨t, rfl, foundM⟩ := Option.bind_eq_some_iff.mp arrives
    obtain ⟨clean, success⟩ := (Bool.and_eq_true _ _).mp still
    obtain ⟨going, _, transition⟩ := transition_of_exit leaves
    exact .next (along.clean (staysClean_le clean) n target) ⟨going, t, transition success, foundM⟩
  · rw [firstDecision, along.decision]

theorem at_enter (position : At s p) (entered : enter g s v n = .ok (visits, undo, inner)) : At inner (n :: p) := by
  obtain ⟨marks, _, shifts, _⟩ := enter_cases entered
  have forks := position.forks
  cases shifts with
  | plain notFork notJoin _ =>
    refine ⟨by simp [position.path], ?_, ?_⟩
    · rw [openForks_plain notFork notJoin]; exact forks
    · rw [strayJoins_other notJoin, position.nested]
  | fork isFork =>
    refine ⟨by simp [position.path], ?_, ?_⟩
    · rw [openForks_fork isFork]; simp [forks]
    · rw [strayJoins_other (by simp [isFork]), position.nested]
  | join isJoin opened _ =>
    dsimp only at opened
    rw [forks] at opened
    refine ⟨by simp [position.path], ?_, ?_⟩
    · rw [openForks_join isJoin, List.map_tail, opened, List.tail_cons]
    · have some : openForks p ≠ [] := fun empty => by simp [empty] at opened
      rw [strayJoins_join isJoin, if_neg some, position.nested]

/-- Leaving a node undoes what entering it did to the forks. -/
theorem forks_leave (entered : enter g s v n = .ok (visits, undo, inner)) (kept : last.forks = inner.forks) :
    (last.leave undo).forks = s.forks := by
  obtain ⟨marks, _, shifts, _⟩ := enter_cases entered
  cases shifts with
  | plain _ _ _ => exact kept
  | fork _ => simp only [State.leave, kept, List.tail_cons]
  | join _ opened _ => simp only [State.leave, kept]; exact opened.symm

/-- Leaving a node leads back to where it was entered. -/
theorem leave_of_enter (position : At s p) (entered : enter g s v n = .ok (visits, undo, inner))
    (standing : At last (n :: p)) : At (last.leave undo) p := by
  have kept : last.forks = inner.forks := standing.forks.trans (at_enter position entered).forks.symm
  exact ⟨by rw [path_leave, standing.path, List.map_cons, List.tail_cons],
    (forks_leave entered kept).trans position.forks, position.nested⟩

theorem Walks.forks (walks : Walks g p s visits entries final) : final.forks = s.forks := by
  induction walks with
  | done => rfl
  | visit _ entered _ _ inner onward => rw [onward, forks_leave entered inner]

/-- A walk ends where it began. -/
theorem Walks.at (walks : Walks g p s visits entries final) (position : At s p) : At final p :=
  ⟨by rw [walks.path, position.path], by rw [walks.forks, position.forks], position.nested⟩

theorem at_leave (position : At s p) (entered : enter g s v n = .ok (visits, undo, inner))
    (inside : Walks g (n :: p) inner visits below last) : At (last.leave undo) p :=
  leave_of_enter position entered (inside.at (at_enter position entered))

/-! ### Entries -/

/-- An entry as the walk makes it: its state has come along its trail, and its visit goes on from there. -/
structure Entry.Proper (g : Graph) (e : Entry) : Prop where
  found : resolve g e.state e.visit = .ok e.node
  position : At e.state e.trail
  along : e.visit.Continues g e.trail

theorem Entry.Proper.trail {e : Entry} (proper : e.Proper g) : g.Trail g.Leads (e.node :: e.trail) :=
  proper.along.leads e.node (target_of_resolve proper.found)

theorem Entry.Proper.lands {e : Entry} (proper : e.Proper g) {t : String} {m : Node}
    (target : e.visit.target = some t) (found : g.find? t = some m) : e.node = m := by
  have here := target_of_resolve proper.found
  rw [target] at here
  exact Option.some.inj (here.symm.trans found)

theorem Walks.proper (walks : Walks g p s visits entries final) (position : At s p)
    (along : ∀ v ∈ visits, v.Continues g p) : ∀ e ∈ entries, e.Proper g := by
  induction walks with
  | done => intro e member; cases member
  | @visit p s inner last final v visits rest n undo below after found entered inside onward ihInside ihOnward =>
    have here := along v (List.mem_cons_self ..)
    intro e member
    rcases mem_entries member with rfl | member | member
    · exact ⟨found, position, here⟩
    · exact ihInside (at_enter position entered) (continues_of_enter here found entered) e member
    · exact ihOnward (at_leave position entered inside) (fun w later => along w (List.mem_cons_of_mem _ later))
        e member

/-- What a walk enters lies beyond where it began. -/
theorem Walks.suffix (walks : Walks g p s visits entries final) : ∀ e ∈ entries, p <:+ e.trail := by
  induction walks with
  | done => intro e member; cases member
  | @visit p s inner last final v visits rest n undo below after found entered inside onward ihInside ihOnward =>
    intro e member
    rcases mem_entries member with rfl | member | member
    · exact List.suffix_refl p
    · exact (List.suffix_cons n p).trans (ihInside e member)
    · exact ihOnward e member

/-- A stretch that begins with a node, without that node. -/
theorem stretch_below {p q t : List Node} (part : n :: p <:+ t) (split : t = q ++ p) :
    ∃ q', q = q' ++ [n] ∧ t = q' ++ n :: p := by
  obtain ⟨q', rfl⟩ := part
  refine ⟨q', ?_, rfl⟩
  have same : (q' ++ [n]) ++ p = q ++ p := by simpa using split
  exact (List.append_cancel_right same).symm

/-- Each visit enters its node from where the walk stands. -/
theorem Walks.enters (walks : Walks g p s visits entries final) (member : v ∈ visits) :
    ∃ e ∈ entries, e.trail = p ∧ e.visit = v := by
  induction walks with
  | done => cases member
  | @visit p s inner last final w visits rest n undo below after found entered inside onward _ ih =>
    rcases List.mem_cons.mp member with rfl | later
    · exact ⟨_, List.mem_cons_self .., rfl, rfl⟩
    · obtain ⟨e, listed, facts⟩ := ih later
      exact ⟨e, List.mem_cons_of_mem _ (List.mem_append_right _ listed), facts⟩

/-- A visit whose target exists enters it. -/
theorem Walks.enters_target (walks : Walks g p s visits entries final) (proper : ∀ e ∈ entries, e.Proper g)
    (member : v ∈ visits) {t : Node} (target : v.target.bind g.find? = some t) :
    ∃ e ∈ entries, e.node = t ∧ e.trail = p ∧ e.visit = v := by
  obtain ⟨e, listed, here, visit⟩ := walks.enters member
  have arrives := target_of_resolve (proper e listed).found
  rw [visit, target] at arrives
  exact ⟨e, listed, (Option.some.inj arrives).symm, here, visit⟩

/-- What a walk does at one of its entries is a walk again, over part of its entries. -/
theorem Walks.inside (walks : Walks g p s visits entries final) {e : Entry} (member : e ∈ entries) :
    ∃ visits undo inner below last, enter g e.state e.visit e.node = .ok (visits, undo, inner) ∧
      Walks g (e.node :: e.trail) inner visits below last ∧ e :: below <:+: entries := by
  induction walks with
  | done => cases member
  | @visit p s inner last final v visits rest n undo below after found entered inside onward ihInside ihOnward =>
    rcases mem_entries member with rfl | member | member
    · exact ⟨visits, undo, inner, below, last, entered, inside, ⟨[], after, rfl⟩⟩
    · obtain ⟨visits', undo', inner', below', last', entered', inside', part⟩ := ihInside member
      exact ⟨visits', undo', inner', below', last', entered', inside', part.trans ⟨[⟨n, p, s, v⟩], after, rfl⟩⟩
    · obtain ⟨visits', undo', inner', below', last', entered', inside', part⟩ := ihOnward member
      exact ⟨visits', undo', inner', below', last', entered', inside',
        part.trans ⟨⟨n, p, s, v⟩ :: below, [], List.append_nil _⟩⟩

/-- An end is entered only where no fork is open. -/
theorem Walks.forks_of_end (walks : Walks g p s visits entries final) {e : Entry} (member : e ∈ entries)
    (ends : e.node.kind = .finish) : e.state.forks = [] := by
  obtain ⟨_, _, _, _, _, entered, _, _⟩ := walks.inside member
  obtain ⟨_, _, shifts, _⟩ := enter_cases entered
  cases shifts with
  | plain _ _ outside => exact outside ends
  | fork isFork => rw [ends] at isFork; cases isFork
  | join isJoin _ _ => rw [ends] at isJoin; cases isJoin

/-- From an entry the walk goes on through every exit of its node. -/
theorem Walks.next (walks : Walks g p s visits entries final) {e : Entry} (member : e ∈ entries)
    {exit : Option String × Bool} (leaves : exit ∈ exits e.node) :
    ∃ e' ∈ entries, e'.trail = e.node :: e.trail ∧ e'.visit =
      ⟨exit.1, staysClean e.state e.node e.visit.clean && exit.2, decisionAfter e.node e.visit.decision⟩ := by
  obtain ⟨visits, undo, inner, below, last, entered, inside, part⟩ := walks.inside member
  obtain ⟨_, _, _, rfl⟩ := enter_cases entered
  obtain ⟨e', listed, facts⟩ := inside.enters (List.mem_map_of_mem leaves)
  exact ⟨e', part.subset (List.mem_cons_of_mem _ listed), facts⟩

/-- From an entry the walk goes on along every trail. -/
theorem Walks.follows (walks : Walks g p s visits entries final) (proper : ∀ e ∈ entries, e.Proper g)
    (single : g.SingleExit) {e : Entry} (member : e ∈ entries) {q : List Node}
    (trail : g.Trail g.Leads (q ++ e.node :: e.trail)) :
    ∃ e' ∈ entries, e'.node :: e'.trail = q ++ e.node :: e.trail := by
  induction q with
  | nil => exact ⟨e, member, rfl⟩
  | cons m q ih =>
    obtain ⟨k, before, split⟩ : ∃ k before, q ++ e.node :: e.trail = k :: before := by
      cases q with
      | nil => exact ⟨_, _, rfl⟩
      | cons k q => exact ⟨_, _, rfl⟩
    rw [List.cons_append, split] at trail
    cases trail with
    | next before leads =>
      obtain ⟨e₁, member₁, same⟩ := ih (split ▸ before)
      rw [split] at same
      obtain ⟨rfl, rfl⟩ := List.cons.inj same
      obtain ⟨going, t, transition, found⟩ := leads
      have inGraph := (proper e₁ member₁).trail.mem e₁.node (List.mem_cons_self ..)
      obtain ⟨ok, leaves⟩ := (exit_of_transition single inGraph going).1 transition
      obtain ⟨e₂, member₂, here, visit⟩ := walks.next member₁ leaves
      have lands := (proper e₂ member₂).lands (by rw [visit]) found
      exact ⟨e₂, member₂, by rw [List.cons_append, split, here, lands]⟩

/-- What is entered below a node is all that can come after it. -/
theorem Walks.reaches (single : g.SingleExit) (position : At s p) (along : v.Continues g p)
    (found : resolve g s v = .ok n) (entered : enter g s v n = .ok (visits, undo, inner))
    (inside : Walks g (n :: p) inner visits below last) {m : Node} {q : List Node}
    (trail : g.Trail g.Leads (m :: q ++ n :: p)) : ∃ e ∈ below, e.node = m ∧ e.trail = q ++ n :: p := by
  have walks : Walks g p s [v] (⟨n, p, s, v⟩ :: (below ++ [])) (last.leave undo) := .visit found entered inside .done
  have proper := walks.proper position fun w member => by rw [List.mem_singleton.mp member]; exact along
  obtain ⟨e, member, same⟩ := walks.follows proper single (List.mem_cons_self ..) trail
  rw [List.append_nil] at member
  rcases List.mem_cons.mp member with rfl | member
  · have longer := congrArg List.length same
    simp only [List.cons_append, List.length_cons, List.length_append] at longer
    omega
  · exact ⟨e, member, List.cons.inj same⟩

/-- The walk that starts with the start node. -/
def Accepted (g : Graph) (entries : List Entry) : Prop :=
  ∃ s final, g.start? = some s ∧ Walks g [] {} [⟨some s.name, true, none⟩] entries final

theorem continues_start {s : Node} (first : g.start? = some s) :
    ∀ v ∈ [(⟨some s.name, true, none⟩ : Visit)], v.Continues g [] := by
  intro v member
  rw [List.mem_singleton.mp member]
  have found := Graph.find?_of_mem (Graph.mem_of_start? first)
  have same (n : Node) (target : (some s.name).bind g.find? = some n) : s = n :=
    Option.some.inj (found.symm.trans target)
  exact ⟨fun n target => same n target ▸ .start first, fun _ n target => same n target ▸ .start first, rfl⟩

theorem at_start : At {} [] := ⟨rfl, rfl, rfl⟩

theorem Accepted.proper (accepted : Accepted g entries) : ∀ e ∈ entries, e.Proper g := by
  obtain ⟨s, final, first, walks⟩ := accepted
  exact walks.proper at_start (continues_start first)

theorem Accepted.enters_start (accepted : Accepted g entries) (start : g.start? = some n) :
    ∃ e ∈ entries, e.node = n ∧ e.trail = [] ∧ e.visit.clean = true := by
  have proper := accepted.proper
  obtain ⟨s, final, first, walks⟩ := accepted
  obtain rfl := Option.some.inj (first.symm.trans start)
  have target : (some s.name).bind g.find? = some s := Graph.find?_of_mem (Graph.mem_of_start? first)
  obtain ⟨e, member, node, here, visit⟩ := walks.enters_target proper (List.mem_cons_self ..) target
  exact ⟨e, member, node, here, by rw [visit]⟩

/-- The walk enters the last node of every trail along that trail. -/
theorem Accepted.covers (accepted : Accepted g entries) (single : g.SingleExit) (trail : g.Trail g.Leads (n :: p)) :
    ∃ e ∈ entries, e.node = n ∧ e.trail = p := by
  have proper := accepted.proper
  have ⟨s, _, first, walks⟩ := accepted
  obtain ⟨e, member, isStart, here, _⟩ := accepted.enters_start first
  obtain ⟨q, split⟩ := trail.origin first
  rw [split] at trail
  obtain ⟨e', member', same⟩ := walks.follows proper single member (q := q) (by rw [isStart, here]; exact trail)
  rw [isStart, here, ← split] at same
  exact ⟨e', member', List.cons.inj same⟩

/-- Along a trail that the walk accepts every join closes a fork, and an end is met outside forks. -/
theorem Accepted.nested (accepted : Accepted g entries) (single : g.SingleExit) (trail : g.Trail g.Leads (n :: p)) :
    strayJoins (n :: p) = 0 ∧ (n.kind = .finish → openForks (n :: p) = []) := by
  obtain ⟨e, member, rfl, rfl⟩ := accepted.covers single trail
  have position := (accepted.proper e member).position
  obtain ⟨s, final, _, walks⟩ := accepted
  obtain ⟨visits, undo, inner, _, _, entered, _, _⟩ := walks.inside member
  refine ⟨(at_enter position entered).nested, fun ends => ?_⟩
  have outside := walks.forks_of_end member ends
  rw [position.forks, List.map_eq_nil_iff] at outside
  rw [openForks_plain (by simp [ends]) (by simp [ends]), outside]

end WorkflowCompiler.ForkJoin
