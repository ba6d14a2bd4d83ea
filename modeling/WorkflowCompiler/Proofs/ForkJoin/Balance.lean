import WorkflowCompiler.Proofs.ForkJoin.Invariants
import WorkflowCompiler.Proofs.Structure

/-!
Balanced trails. Where the check of forks and joins passes, no trail has met more
joins than forks, and at an end node it has met as many of the one as of the
other. Where the check reports a join without a fork, or an end inside a fork,
some trail is to blame: one that comes to the join with every fork closed, or to
the end with a fork still open.
-/
namespace WorkflowCompiler

/-- How many forks a trail has met. -/
def forkCount (p : List Node) : Nat := p.countP (·.kind = .fork)

/-- How many joins a trail has met. -/
def joinCount (p : List Node) : Nat := p.countP (·.kind = .join)

/-- Trails that are closed like brackets. -/
structure Balanced (p : List Node) : Prop where
  /-- No join comes before the fork that it closes; a trail begins with its last nodes. -/
  covered : ∀ q, q <:+ p → joinCount q ≤ forkCount q
  /-- At an end no fork is open. -/
  settled : ∀ n before, p = n :: before → n.kind = .finish → forkCount p = joinCount p

/-- Where every join closes a fork, the forks are the joins and those that are open. -/
theorem forkCount_eq {p : List Node} (nested : strayJoins p = 0) :
    forkCount p = joinCount p + (openForks p).length := by
  have counted := countP_fork_add p
  rw [nested] at counted
  exact counted

namespace ForkJoin

/-- A check that passes has found no fork and no join, or has walked every trail. -/
theorem accepted_of_check {g : Graph} {r : Registry} {report : StructureReport}
    (checked : g.checkStructure r = .ok report) (passed : g.checkForkJoin report = .ok ()) :
    report.forks.length = report.joins.length ∧
      ((∀ n, g.Reachable n → n.kind ≠ .fork ∧ n.kind ≠ .join) ∨ ∃ entries, Accepted g entries) := by
  obtain ⟨s, first, explored⟩ := Graph.explored_of_checkStructure checked
  obtain ⟨_, ⟨_, forks⟩, _, joins⟩ := explored.report first
  unfold Graph.checkForkJoin at passed
  split at passed
  · cases passed
  · rename_i same
    rw [not_not] at same
    refine ⟨same, ?_⟩
    split at passed
    · rename_i empty
      have noForks : report.forks = [] := List.isEmpty_iff.mp empty
      have noJoins : report.joins = [] := List.length_eq_zero_iff.mp (by rw [← same, noForks]; rfl)
      rw [noForks] at forks
      rw [noJoins] at joins
      refine .inl fun n reachable => ⟨fun isFork => ?_, fun isJoin => ?_⟩
      · exact List.not_mem_nil ((forks n.name).mpr ⟨n, reachable, isFork, rfl⟩)
      · exact List.not_mem_nil ((joins n.name).mpr ⟨n, reachable, isJoin, rfl⟩)
    · simp only [Graph.start, first] at passed
      rcases walks_or_fails g [] {} [⟨some s.name, true, none⟩] with ⟨entries, final, walks⟩ | ⟨fault, fails⟩
      · exact .inr ⟨entries, s, final, first, walks⟩
      · rw [run_visit_of_fails fails] at passed
        cases passed

/-- What can be wrong with a node where it is entered. -/
inductive Refusal (s : State) (n : Node) : Fault → Prop
  | revisit : Refusal s n (.revisit n.name)
  | repeatedTarget (isFork : n.kind = .fork) {t : String} : Refusal s n (.duplicateForkTarget n.name t)
  | strayJoin (isJoin : n.kind = .join) (none : s.forks = []) : Refusal s n (.joinWithoutFork n.name)
  | mismatch (isJoin : n.kind = .join) {f : String} {outer : List String} (opened : s.forks = f :: outer)
      (other : (s.expectJoin n.name).head? ≠ some n.name) :
      Refusal s n (.joinMismatch f n.name (s.expectJoin n.name).head?)
  | openEnd (ends : n.kind = .finish) {f : String} {outer : List String} (opened : s.forks = f :: outer) :
      Refusal s n (.unjoinedEnd s.path.head? f n.name)

theorem follow_error {g : Graph} (s : State) (marks : List (String × Option String)) {n : Node} {clean : Bool}
    {decision : Option String} {fault : Fault}
    (refused : follow g { s with path := n.name :: s.path, cleanVisits := marks } n clean decision = .error fault) :
    Refusal s n fault := by
  unfold follow at refused
  split at refused
  · cases refused
  · cases refused
  · cases refused
  · rename_i body
    split at refused
    · cases refused
      exact .repeatedTarget (by simp [Node.kind, body])
    · cases refused
  · rename_i body
    have isJoin : n.kind = .join := by simp [Node.kind, body]
    split at refused
    · rename_i none
      cases refused
      exact .strayJoin isJoin none
    · rename_i opened
      dsimp only at refused
      split at refused
      · rename_i other
        cases refused
        exact .mismatch isJoin opened other
      · cases refused
  · cases refused
  · rename_i body
    split at refused
    · cases refused
    · rename_i opened
      cases refused
      exact .openEnd (by simp [Node.kind, body]) opened

theorem recordVisit_error {s : State} {name : String} {decision : Option String} {fault : Fault}
    (refused : s.recordVisit name decision = .error fault) : fault = .revisit name := by
  unfold State.recordVisit at refused
  split at refused
  · cases refused
  · split at refused
    · cases refused
      rfl
    · cases refused

theorem enter_error {g : Graph} {s : State} {v : Visit} {n : Node} {fault : Fault}
    (refused : enter g s v n = .error fault) : Refusal s n fault := by
  unfold enter at refused
  dsimp only at refused
  split at refused
  · rename_i counts
    split at refused
    · rename_i unrecorded
      cases refused
      rw [recordVisit_error unrecorded]
      exact .revisit
    · rename_i recorded
      obtain ⟨clean, once⟩ := (Bool.and_eq_true _ _).mp counts
      obtain ⟨marks, _, rfl⟩ := recordVisit_cases clean once recorded
      exact follow_error s marks refused
  · exact follow_error s s.cleanVisits refused

/-- Why the check stops: for the graph as a whole, for a transition that leads nowhere or back, or for
    the last node of a trail. -/
inductive Stop (g : Graph) : Fault → Prop
  | unbalanced {forks joins : Nat} : Stop g (.unbalancedForks forks joins)
  | noStart : Stop g (.noStartNode g.name)
  | dangling {source target : Option String} : Stop g (.danglingTransition source target)
  | cycle {name : String} {path : List String} : Stop g (.cycleOnPath name path)
  | refused {n : Node} {p : List Node} {after : State} {fault : Fault} (trail : g.Trail g.Leads (n :: p))
      (position : At after p) (refusal : Refusal after n fault) : Stop g fault

theorem stop_of_resolve {g : Graph} {s : State} {v : Visit} {fault : Fault} (lost : resolve g s v = .error fault) :
    Stop g fault := by
  unfold resolve at lost
  split at lost
  · cases lost
    exact .dangling
  · split at lost
    · cases lost
      exact .cycle
    · cases lost

/-- A check that stops has not come to its walk, or the walk fails. -/
theorem fails_of_check {g : Graph} {report : StructureReport} {fault : Fault}
    (stopped : g.checkForkJoin report = .error fault) :
    (∃ forks joins, fault = .unbalancedForks forks joins) ∨ (g.start? = none ∧ fault = .noStartNode g.name) ∨
      ∃ s, g.start? = some s ∧ Fails g [] {} [⟨some s.name, true, none⟩] fault := by
  unfold Graph.checkForkJoin Graph.start at stopped
  split at stopped
  · cases stopped
    exact .inl ⟨_, _, rfl⟩
  · split at stopped
    · cases stopped
    · cases first : g.start? with
      | none =>
        rw [first] at stopped
        cases stopped
        exact .inr (.inl ⟨rfl, rfl⟩)
      | some s =>
        rw [first] at stopped
        rcases walks_or_fails g [] {} [⟨some s.name, true, none⟩] with ⟨entries, final, walks⟩ | ⟨other, fails⟩
        · simp only [run_visit_of_walks walks] at stopped
          cases stopped
        · simp only [run_visit_of_fails fails] at stopped
          cases stopped
          exact .inr (.inr ⟨s, rfl, fails⟩)

theorem stop_of_check {g : Graph} {report : StructureReport} {fault : Fault}
    (stopped : g.checkForkJoin report = .error fault) : Stop g fault := by
  rcases fails_of_check stopped with ⟨_, _, rfl⟩ | ⟨_, rfl⟩ | ⟨s, first, fails⟩
  · exact .unbalanced
  · exact .noStart
  · obtain ⟨q, after, v, rest, along, lost | ⟨n, found, refused⟩⟩ := (maintained_along g).fails fails (along_start first)
    · exact stop_of_resolve lost
    · exact .refused (along.trail found) along.position (enter_error refused)

/-- A walk that accepts the graph has seen that every trail is balanced. -/
theorem Accepted.balanced {g : Graph} {entries : List Entry} (accepted : Accepted g entries)
    (single : g.SingleExit) {p : List Node} (trail : g.Trail g.Leads p) : Balanced p := by
  refine ⟨?_, ?_⟩
  · rintro q ⟨above, rfl⟩
    cases q with
    | nil => exact Nat.le_refl _
    | cons n q =>
      have counted := forkCount_eq (accepted.nested single trail.before).1
      omega
  · rintro n before rfl ends
    obtain ⟨nested, closed⟩ := accepted.nested single trail
    rw [forkCount_eq nested, closed ends, List.length_nil, Nat.add_zero]

end ForkJoin

/-- Without forks and joins every trail is balanced. -/
private theorem balanced_plain {p : List Node} (plain : ∀ n ∈ p, n.kind ≠ .fork ∧ n.kind ≠ .join) : Balanced p := by
  have none (q : List Node) (part : q <:+ p) : forkCount q = 0 ∧ joinCount q = 0 := by
    simp only [forkCount, joinCount, List.countP_eq_zero, decide_eq_true_eq]
    exact ⟨fun n member => (plain n (part.subset member)).1, fun n member => (plain n (part.subset member)).2⟩
  refine ⟨fun q part => ?_, fun n before _ _ => ?_⟩
  · rw [(none q part).1, (none q part).2]
  · rw [(none p (List.suffix_refl p)).1, (none p (List.suffix_refl p)).2]

theorem Graph.checkForkJoin_nestedForks :
    nestedForks.checkForkJoin ⟨["split", "inner"], ["meet", "close"], 10⟩ = .ok () := by
  decide +kernel

theorem Graph.singleExit_nestedForks : nestedForks.SingleExit := by
  decide

/-- Where the check passes, every trail is balanced. Where it stops at a join without a fork, or at
    an end inside a fork, there is a trail to that join or end which is not. -/
theorem Graph.checkForkJoin_balanced (g : Graph) :
    (∀ r report, g.SingleExit → g.checkStructure r = .ok report → g.checkForkJoin report = .ok () →
      ∀ p, g.Trail g.Leads p → Balanced p) ∧
    (∀ report name, g.checkForkJoin report = .error (.joinWithoutFork name) →
      ∃ n p, g.Trail g.Leads (n :: p) ∧ n.name = name ∧ n.kind = .join ∧ openForks p = []) ∧
    ∀ report parent fork stop, g.checkForkJoin report = .error (.unjoinedEnd parent fork stop) →
      ∃ n p, g.Trail g.Leads (n :: p) ∧ n.name = stop ∧ n.kind = .finish ∧
        joinCount (n :: p) < forkCount (n :: p) := by
  refine ⟨?_, ?_, ?_⟩
  · intro r report single checked passed p trail
    rcases (ForkJoin.accepted_of_check checked passed).2 with plain | ⟨entries, accepted⟩
    · exact balanced_plain fun n member => plain n (trail.reachable n member)
    · exact accepted.balanced single trail
  · intro report name stopped
    cases ForkJoin.stop_of_check stopped with
    | @refused n p after _ trail position refusal =>
      cases refusal with
      | strayJoin isJoin none =>
        rw [position.forks, List.map_eq_nil_iff] at none
        exact ⟨n, p, trail, rfl, isJoin, none⟩
  · intro report parent fork stop stopped
    cases ForkJoin.stop_of_check stopped with
    | @refused n p after _ trail position refusal =>
      cases refusal with
      | openEnd ends opened =>
        rw [position.forks] at opened
        have some : 0 < (openForks p).length := by
          rw [← List.length_map Node.name, opened]
          simp
        have counted := forkCount_eq (p := n :: p) (by rw [strayJoins_other (by simp [ends]), position.nested])
        rw [openForks_plain (by simp [ends]) (by simp [ends])] at counted
        exact ⟨n, p, trail, rfl, ends, by omega⟩

/-- A join that comes before the fork. -/
def Graph.joinFirst : Graph where
  name := "reversed"
  nodes := [⟨startName, .start ["close"]⟩, ⟨"close", .join ["split"]⟩, ⟨"split", .fork ["stop"]⟩, ⟨"stop", .kill none []⟩]
  distinct := by decide

/-- A fork with a branch that goes straight to the end. -/
def Graph.endInside : Graph where
  name := "open"
  nodes := [⟨startName, .start ["split"]⟩, ⟨"split", .fork ["close", "done"]⟩, ⟨"close", .join ["done"]⟩, ⟨"done", .finish []⟩]
  distinct := by decide

theorem Graph.balanced_nestedForks :
    (∀ p, nestedForks.Trail nestedForks.Leads p → Balanced p) ∧
    (∃ n p, joinFirst.Trail joinFirst.Leads (n :: p) ∧ n.name = "close" ∧ n.kind = .join ∧ openForks p = []) ∧
    ∃ n p, endInside.Trail endInside.Leads (n :: p) ∧ n.name = "done" ∧ n.kind = .finish ∧
      joinCount (n :: p) < forkCount (n :: p) := by
  refine ⟨?_, ?_, ?_⟩
  · exact (checkForkJoin_balanced nestedForks).1 _ _ singleExit_nestedForks checkStructure_nestedForks
      checkForkJoin_nestedForks
  · exact (checkForkJoin_balanced joinFirst).2.1 ⟨["split"], ["close"], 4⟩ _ (by decide +kernel)
  · exact (checkForkJoin_balanced endInside).2.2 ⟨["split"], ["close"], 4⟩ (some "split") "split" _ (by decide +kernel)

end WorkflowCompiler
