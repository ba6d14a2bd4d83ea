import WorkflowCompiler.Proofs.ForkJoin.Revisit

/-!
What the check of forks and joins demands, without the order of targets. In a
well-forked graph joins close forks and ends lie outside them, forks and joins are
in pairs, a fork names a target twice only where ways may meet, and where two of its
branches come to one node a decision comes before the fork (`Graph.WellForked`).
The check can miss a fork that nothing closes, and it goes by the way to a fork that
it takes first. Where some way on closes every fork (`Graph.Closable`), and all ways
to a fork agree on whether they pass a decision (`Graph.Settled`), a graph that the
check accepts is well-forked.
-/
namespace WorkflowCompiler

/-- From within a fork some way goes on to a join that closes it. This is not asked of ends and kills, nor of
    what only an error leads to, unless it is a fork or a join itself. -/
def Graph.Closable (g : Graph) : Prop :=
  ∀ n p, g.Trail g.Leads (n :: p) → openForks (n :: p) ≠ [] →
    n.kind = .fork ∨ n.kind = .join ∨ (g.Trail g.Succeeds (n :: p) ∧ Structure.isTerminal n = false) →
    ∃ q, g.Trail g.Leads (q ++ n :: p) ∧ strayJoins q ≠ 0

/-- To a fork whose branches meet, either all ways without an error pass a decision or none does. -/
def Graph.Settled (g : Graph) : Prop :=
  ∀ f x p q, g.RunsTwice f x → g.Trail g.Succeeds (f :: p) → g.Trail g.Succeeds (f :: q) →
    ForkJoin.firstDecision p = none → ForkJoin.firstDecision q = none

/-- Forks and joins as they should be, whatever the order of targets. -/
structure Graph.WellForked (g : Graph) : Prop where
  nested : g.Nested
  outside : ∀ n p, g.Trail g.Leads (n :: p) → n.kind = .finish → openForks (n :: p) = []
  paired : g.Paired
  /-- Several branches may lead to one join or kill node. -/
  targets : ∀ f, g.Reachable f → f.kind = .fork → ∀ t, 1 < f.transitions.count t →
    ∃ n, g.find? t = some n ∧ (n.kind = .join ∨ n.kind = .kill)
  /-- One decision on the way to a fork is taken for one that keeps its branches apart. -/
  decided : ∀ f x p, g.RunsTwice f x → g.Trail g.Succeeds (f :: p) → ForkJoin.firstDecision p ≠ none

/-! ### Closing what is open -/

theorem Graph.Closable.resumes {g : Graph} (closable : g.Closable) : g.Resumes :=
  fun j p trail isJoin inside => closable j p trail inside (.inr (.inl isJoin))

/-- Where a stretch closes a fork that was open before it, its join closes that fork. -/
theorem Graph.closes_of_stray {g : Graph} {f k : Node} {below p fs rest : List Node}
    (trail : g.Trail g.Leads (k :: below ++ p)) (isJoin : k.kind = .join) (inner : openForks below = [])
    (opened : openForks p = fs ++ f :: rest) (closed : strayJoins below = fs.length) : g.Closes g.Leads f k := by
  obtain ⟨q, before, rfl, isFork, opens, nested, _⟩ := openForks_split opened
  refine ⟨below ++ q, before, by simpa using trail, isFork, isJoin, ?_, ?_⟩
  · rw [openForks_append, inner, opens, closed, List.drop_length, List.nil_append]
  · rw [strayJoins_append, nested, opens, closed, Nat.sub_self]

theorem Graph.Closable.closed {g : Graph} (closable : g.Closable) :
    ∀ f, g.Reachable f → f.kind = .fork → ∃ j, g.Closes g.Leads f j := by
  intro f reachable isFork
  obtain ⟨p, trail⟩ := Graph.reachable_iff_trail.mp reachable
  have opened : openForks (f :: p) = [] ++ f :: openForks p := openForks_fork isFork p
  obtain ⟨q, further, stray⟩ := closable f p trail (by simp [opened]) (.inl isFork)
  obtain ⟨above, k, below, rfl, isJoin, inner, closed⟩ := exists_stray stray
  rw [List.append_assoc] at further
  exact ⟨k, closes_of_stray further.before isJoin inner opened closed⟩

/-- From every node that an error-free way leads to and that goes on, all open forks can be closed. -/
theorem Graph.Closable.drains {g : Graph} (closable : g.Closable) {n : Node} {p : List Node}
    (trail : g.Trail g.Succeeds (n :: p)) (going : Structure.isTerminal n = false) : g.Drains n p := by
  by_cases outside : openForks (n :: p) = []
  · exact ⟨[], trail.leads, by simp [outside]⟩
  · obtain ⟨q, further, stray⟩ := closable n p trail.leads outside (.inr (.inr ⟨trail, going⟩))
    obtain ⟨above, k, below, rfl, isJoin, inner, closed⟩ := exists_stray stray
    rw [List.append_assoc] at further
    exact (closable.resumes.drains further.before isJoin).of_stray isJoin inner closed

/-- Some join of a stretch closes the fork that as many of its joins closed forks before. -/
theorem exists_stray_at {q : List Node} {i : Nat} (less : i < strayJoins q) :
    ∃ above k below, q = above ++ k :: below ∧ k.kind = .join ∧ openForks below = [] ∧ strayJoins below = i := by
  induction q with
  | nil => simp [strayJoins] at less
  | cons n q ih =>
    by_cases earlier : i < strayJoins q
    · obtain ⟨above, k, below, rfl, facts⟩ := ih earlier
      exact ⟨n :: above, k, below, rfl, facts⟩
    · rw [strayJoins] at less
      split at less
      · rename_i closes
        exact ⟨[], n, q, rfl, closes.1, closes.2, by omega⟩
      · exact absurd less earlier

/-- What is open on a way from where everything can be closed is open on every way to the same node. -/
theorem Graph.Nested.openForks_subset {g : Graph} (nested : g.Nested)
    (owned : ∀ f h j, g.Closes g.Leads f j → g.Closes g.Leads h j → f = h) {n : Node} {p other : List Node}
    (drains : g.Drains n p) (trail : g.Trail g.Leads (n :: other)) :
    openForks (n :: p) ⊆ openForks (n :: other) := by
  intro f member
  obtain ⟨fs, rest, opened⟩ := List.append_of_mem member
  obtain ⟨q, further, enough⟩ := drains
  obtain ⟨above, k, below, rfl, isJoin, inner, closed⟩ := exists_stray_at (q := q) (i := fs.length) (by
    rw [opened, List.length_append, List.length_cons] at enough
    omega)
  rw [List.append_assoc] at further
  have closes := closes_of_stray further.before isJoin inner opened closed
  -- The same join comes after the other way, and closes the fork that is as deep there.
  have arrival : g.Trail g.Leads (k :: below ++ n :: other) := further.before.splice trail
  have deep : fs.length < (openForks (n :: other)).length := by
    have stray := nested k (below ++ n :: other) arrival
    rw [← List.cons_append, strayJoins_append, strayJoins_join isJoin, if_pos inner, closed] at stray
    omega
  have there : openForks (n :: other) =
      (openForks (n :: other)).take fs.length ++ (openForks (n :: other))[fs.length] ::
        (openForks (n :: other)).drop (fs.length + 1) := by
    rw [← List.drop_eq_getElem_cons deep, List.take_append_drop]
  have closes' := closes_of_stray arrival isJoin inner there (by
    rw [closed, List.length_take]
    omega)
  rw [owned f _ k closes closes']
  exact List.getElem_mem deep

/-! ### Targets of forks -/

namespace ForkJoin

theorem repeatedTarget?_eq_none_iff {g : Graph} {targets : List String} :
    repeatedTarget? g targets = none ↔
      ∀ t, 1 < targets.count t → ∃ n, g.find? t = some n ∧ (n.kind = .join ∨ n.kind = .kill) := by
  induction targets with
  | nil => simp [repeatedTarget?]
  | cons t targets ih =>
    have kinds : (g.find? t).map Node.kind = some .join ∨ (g.find? t).map Node.kind = some .kill ↔
        ∃ n, g.find? t = some n ∧ (n.kind = .join ∨ n.kind = .kill) := by
      simp only [Option.map_eq_some_iff, ← exists_or, ← and_or_left]
    have others (u : String) (other : u ≠ t) : (t :: targets).count u = targets.count u :=
      List.count_cons_of_ne (Ne.symm other)
    rw [repeatedTarget?]
    split
    · rename_i meets
      rw [kinds] at meets
      rw [ih]
      constructor
      · intro rest u again
        by_cases same : u = t
        · rw [same]
          exact meets
        · exact rest u (others u same ▸ again)
      · intro all u again
        exact all u (Nat.lt_of_lt_of_le again List.count_le_count_cons)
    · rename_i apart
      rw [kinds] at apart
      split
      · rename_i listed
        simp only [reduceCtorEq, false_iff, not_forall]
        have positive := List.count_pos_iff.mpr listed
        exact ⟨t, by rw [List.count_cons_self]; omega, apart⟩
      · rename_i fresh
        rw [ih]
        constructor
        · intro rest u again
          by_cases same : u = t
          · rw [same, List.count_cons_self, List.count_eq_zero_of_not_mem fresh] at again
            exact absurd again (Nat.lt_irrefl 1)
          · exact rest u (others u same ▸ again)
        · intro all u again
          exact all u (Nat.lt_of_lt_of_le again List.count_le_count_cons)

/-- A fork that is entered does not name a target twice. -/
theorem targets_of_enter {g : Graph} {s inner : State} {v : Visit} {n : Node} {visits : List Visit} {undo : Undo}
    (entered : enter g s v n = .ok (visits, undo, inner)) (isFork : n.kind = .fork) :
    repeatedTarget? g n.transitions = none := by
  have followed {after : State} (followed : follow g after n v.clean v.decision = .ok (visits, undo, inner)) :
      repeatedTarget? g n.transitions = none := by
    cases body : n.body with
    | fork targets =>
      simp only [follow, body] at followed
      simp only [Node.transitions, body]
      split at followed
      · cases followed
      · rename_i none
        exact none
    | _ => simp [Node.kind, body] at isFork
  unfold enter at entered
  dsimp only at entered
  split at entered
  · split at entered
    · cases entered
    · exact followed entered
  · exact followed entered

/-- What the walk accepts is well-forked, where it cannot miss anything. -/
theorem Accepted.wellForked {g : Graph} {entries : List Entry} (accepted : Accepted g entries)
    (single : g.SingleExit) (settled : g.Settled) (paired : g.Paired) : g.WellForked where
  nested n p trail := (accepted.nested single trail).1
  outside n p trail := (accepted.nested single trail).2
  paired := paired
  targets f reachable isFork := by
    obtain ⟨p, trail⟩ := Graph.reachable_iff_trail.mp reachable
    obtain ⟨e, member, rfl, rfl⟩ := accepted.covers single trail
    obtain ⟨s, final, start, walks⟩ := accepted
    obtain ⟨visits, undo, inner, _, _, entered, _⟩ := walks.inside member
    exact repeatedTarget?_eq_none_iff.mp (targets_of_enter entered isFork)
  decided f x p twice trail undecided := by
    obtain ⟨e, member, rfl, clean⟩ := accepted.clean_entry single trail
    have proper := accepted.proper e member
    have arrival := proper.along.clean clean e.node (target_of_resolve proper.found)
    have owned : ∀ f h j, g.Closes g.Succeeds f j → g.Closes g.Succeeds h j → f = h :=
      fun f h j left right => paired.fork_unique f h j left.leads right.leads
    exact accepted.branches_apart single owned member clean (settled _ x p _ twice trail arrival undecided) x twice

end ForkJoin

/-- Where all open forks can be closed, and all ways to a fork agree on decisions, an accepted graph is
    well-forked. -/
theorem Graph.wellForked_of_check {g : Graph} {r : Registry} {report : StructureReport} (single : g.SingleExit)
    (checked : g.checkStructure r = .ok report) (closable : g.Closable) (settled : g.Settled)
    (passed : g.checkForkJoin report = .ok ()) : g.WellForked := by
  have paired := paired_of_closed single checked passed closable.resumes closable.closed
  rcases (ForkJoin.accepted_of_check checked passed).2 with plain | ⟨entries, accepted⟩
  · have noForks {p : List Node} (trail : g.Trail g.Leads p) : openForks p = [] :=
      openForks_eq_nil fun n member => (plain n (trail.reachable n member)).1
    refine ⟨fun n p trail => ?_, fun n p trail _ => noForks trail, paired, ?_, ?_⟩
    · by_contra stray
      obtain ⟨above, k, below, split, isJoin, _⟩ := exists_stray stray
      exact (plain k (trail.reachable k (by simp [split]))).2 isJoin
    · exact fun f reachable isFork => absurd isFork (plain f reachable).1
    · exact fun f x p twice trail => absurd twice.1 (plain f (trail.leads.reachable f (List.mem_cons_self ..))).1
  · exact accepted.wellForked single settled paired

/-- Each node of a list is an end, or leads to one further on in the list. -/
def Graph.Forward (g : Graph) : List Node → Prop
  | [] => True
  | n :: rest => (n.kind = .finish ∨ ∃ m ∈ rest, g.Leads n m) ∧ g.Forward rest

instance Graph.decidableForward (g : Graph) : (nodes : List Node) → Decidable (g.Forward nodes)
  | [] => inferInstanceAs (Decidable True)
  | n :: rest =>
    have := g.decidableForward rest
    inferInstanceAs (Decidable ((n.kind = .finish ∨ ∃ m ∈ rest, g.Leads n m) ∧ g.Forward rest))

theorem Graph.Forward.ends {g : Graph} {nodes : List Node} (forward : g.Forward nodes) :
    ∀ n ∈ nodes, ∃ e, Relation.ReflTransGen g.Leads n e ∧ e.kind = .finish := by
  induction nodes with
  | nil => intro n member; cases member
  | cons m rest ih =>
    obtain ⟨isEnd | ⟨k, later, onward⟩, others⟩ := forward
    · intro n member
      rcases List.mem_cons.mp member with rfl | member
      · exact ⟨n, .refl, isEnd⟩
      · exact ih others n member
    · intro n member
      rcases List.mem_cons.mp member with rfl | member
      · obtain ⟨e, path, isEnd⟩ := ih others k later
        exact ⟨e, path.head onward, isEnd⟩
      · exact ih others n member

/-- What comes after the last node of a trail comes after the trail. -/
theorem Graph.Trail.extend {g : Graph} {n m : Node} {p : List Node} (trail : g.Trail g.Leads (n :: p))
    (path : Relation.ReflTransGen g.Leads n m) : m = n ∨ ∃ q, g.Trail g.Leads (m :: q ++ n :: p) := by
  induction path with
  | refl => exact .inl rfl
  | @tail k m _ onward ih =>
    rcases ih with rfl | ⟨q, before⟩
    · exact .inr ⟨[], .next trail onward⟩
    · exact .inr ⟨k :: q, .next before onward⟩

/-- Where every node of an accepted graph but the kills leads on to an end, all open forks can be closed. -/
theorem Graph.closable_of_forward {g : Graph} {r : Registry} {report : StructureReport} (single : g.SingleExit)
    (checked : g.checkStructure r = .ok report) (passed : g.checkForkJoin report = .ok ())
    (forward : g.Forward (g.nodes.filter fun n => n.kind ≠ .kill)) : g.Closable := by
  intro n p trail inside asked
  have going : Structure.isTerminal n = false := by
    rcases asked with isFork | isJoin | ⟨_, going⟩
    · simp [Structure.isTerminal, isFork]
    · simp [Structure.isTerminal, isJoin]
    · exact going
  have listed : n ∈ g.nodes.filter fun n => n.kind ≠ .kill := by
    simp only [Structure.isTerminal, Bool.or_eq_false_iff, beq_eq_false_iff_ne] at going
    simpa [going.2] using trail.mem n (List.mem_cons_self ..)
  obtain ⟨e, path, isEnd⟩ := forward.ends n listed
  rcases trail.extend path with rfl | ⟨q, further⟩
  · simp [Structure.isTerminal, isEnd] at going
  · exact ⟨e :: q, further, stray_of_end single checked passed further isEnd inside⟩

end WorkflowCompiler
