import WorkflowCompiler.Graph.Structure

/-!
# Forks and joins

A walk over all paths from the start node. Along a path, joins close forks like
brackets; every fork must be closed by one join only, no path may end inside a
fork, and no node may run twice. A node that is reached twice without taking an
error transition is accepted only where both paths passed one decision, since
just one branch of a decision runs.
-/
namespace WorkflowCompiler.ForkJoin

structure Visit where
  /-- Its name; nothing where a transition that must be there is missing. -/
  target : Option String
  /-- No error transition was taken on the way, nor a join that had been passed before. -/
  clean : Bool
  /-- The first decision on the way. -/
  decision : Option String
deriving DecidableEq, Repr

/-- What has to be undone when a node is left. -/
inductive Undo
  | nothing
  /-- Leaving a fork forgets it, and the join that closed it. -/
  | closeFork
  /-- Leaving a join opens again the fork that it closed. -/
  | reopenFork (fork join : String)
deriving DecidableEq, Repr

/-- A step of the walk that is still to be taken. -/
inductive Task
  | visit (v : Visit)
  | leave (undo : Undo)
deriving DecidableEq, Repr

structure State where
  /-- The names on the path, from the current node back to the start. -/
  path : List String := []
  /-- The forks on the path that are open, innermost first. -/
  forks : List String := []
  /-- The joins that close open forks, innermost first. -/
  joins : List String := []
  /-- The nodes that were visited cleanly, with the first decision on the way there. -/
  cleanVisits : List (String × Option String) := []
  passedJoins : List String := []
deriving DecidableEq, Repr

/-- Drops repetitions; the first occurrence stays. -/
def distinctAfter (seen : List String) : List String → List String
  | [] => []
  | t :: rest => if t ∈ seen then distinctAfter seen rest else t :: distinctAfter (t :: seen) rest

def distinct (names : List String) : List String := distinctAfter [] names

theorem length_distinctAfter_le (seen names : List String) :
    (distinctAfter seen names).length ≤ names.length := by
  induction names generalizing seen with
  | nil => exact Nat.le_refl _
  | cons t rest ih =>
    unfold distinctAfter
    split
    · exact Nat.le_succ_of_le (ih _)
    · exact Nat.succ_le_succ (ih _)

theorem length_distinct_le (names : List String) : (distinct names).length ≤ names.length :=
  length_distinctAfter_le [] names

/-- The first target that a fork names twice. Several branches may lead to one join or kill node. -/
def repeatedTarget? (g : Graph) : List String → Option String
  | [] => none
  | t :: rest =>
    let kind := (g.find? t).map Node.kind
    if kind = some .join ∨ kind = some .kill then repeatedTarget? g rest
    else if t ∈ rest then some t
    else repeatedTarget? g rest

/-- Whether a node may not run twice. -/
def runsOnce (n : Node) : Bool := n.kind != .kill && n.kind != .join && n.kind != .finish

/-- The clean visits with one more; a second visit must share its first decision. -/
def State.recordVisit (s : State) (name : String) (decision : Option String) : Except Fault State :=
  match s.cleanVisits.lookup name with
  | none => .ok { s with cleanVisits := (name, decision) :: s.cleanVisits }
  | some earlier =>
    if earlier = none ∨ decision = none ∨ earlier ≠ decision then .error (.revisit name)
    else .ok s

def resolve (g : Graph) (s : State) (v : Visit) : Except Fault Node :=
  match v.target.bind g.find? with
  | none => .error (.danglingTransition s.path.head? v.target)
  | some n =>
    if n.name ∈ s.path then .error (.cycleOnPath n.name (s.path.reverse ++ [n.name])) else .ok n

/-- The joins, with the given one on top if a fork still waits for its join. -/
def State.expectJoin (s : State) (name : String) : List String :=
  if s.joins.length < s.forks.length ∧ s.joins.head? ≠ some name then name :: s.joins else s.joins

/-- What a node does to the forks and joins, which nodes come after it, and what is to be undone
    when it is left. -/
def follow (g : Graph) (s : State) (n : Node) (clean : Bool) (decision : Option String) :
    Except Fault (List Visit × Undo × State) :=
  match n.body with
  | .start targets => .ok ([⟨targets.head?, clean, decision⟩], .nothing, s)
  | .action ok error _ => .ok ([⟨some ok, clean, decision⟩, ⟨some error, false, decision⟩], .nothing, s)
  | .decision _ targets =>
    let decision := decision.or (some n.name)
    .ok ((distinct targets).map fun t => ⟨some t, clean, decision⟩, .nothing, s)
  | .fork targets =>
    match repeatedTarget? g targets with
    | some t => .error (.duplicateForkTarget n.name t)
    | none =>
      .ok ((distinct targets).map fun t => ⟨some t, clean, decision⟩, .closeFork,
        { s with forks := n.name :: s.forks })
  | .join targets =>
    match s.forks with
    | [] => .error (.joinWithoutFork n.name)
    | fork :: outer =>
      let joins := s.expectJoin n.name
      if joins.head? ≠ some n.name then .error (.joinMismatch fork n.name joins.head?)
      else
        let clean := clean && n.name ∉ s.passedJoins
        .ok ([⟨targets.head?, clean, decision⟩], .reopenFork fork n.name,
          { s with
            forks := outer
            joins := joins.tail
            passedJoins := if clean then n.name :: s.passedJoins else s.passedJoins })
  | .kill .. => .ok ([], .nothing, s)
  | .finish _ =>
    match s.forks with
    | [] => .ok ([], .nothing, s)
    | fork :: _ => .error (.unjoinedEnd s.path.tail.head? fork n.name)

/-- Enters a node: what comes after it, what is to be undone, and the state inside. -/
def enter (g : Graph) (s : State) (v : Visit) (n : Node) : Except Fault (List Visit × Undo × State) :=
  let s := { s with path := n.name :: s.path }
  if v.clean && runsOnce n then
    match s.recordVisit n.name v.decision with
    | .error fault => .error fault
    | .ok s => follow g s n v.clean v.decision
  else follow g s n v.clean v.decision

/-- Leaves the current node. -/
def State.leave (s : State) : Undo → State
  | .nothing => { s with path := s.path.tail }
  | .closeFork => { s with path := s.path.tail, forks := s.forks.tail, joins := s.joins.tail }
  | .reopenFork fork join =>
    { s with path := s.path.tail, forks := fork :: s.forks, joins := join :: s.joins }

/-! ## The walk ends -/

/-- No node leads to more visits than this. -/
def breadth (g : Graph) : Nat := 2 + g.nodes.foldr (fun n total => n.transitions.length + total) 0

/-- What a visit costs at most, given the names on the path. -/
def visitCost (g : Graph) (path : List String) : Nat := Nat.pow (breadth g + 2) (g.unvisited path)

/-- What the tasks cost at most, given the names on the path. -/
def cost (g : Graph) : List Task → List String → Nat
  | [], _ => 0
  | .visit _ :: rest, path => visitCost g path + cost g rest path
  | .leave _ :: rest, path => 1 + cost g rest path.tail

theorem le_foldr_add_of_mem {α : Type} {f : α → Nat} {l : List α} {a : α} (mem : a ∈ l) :
    f a ≤ l.foldr (fun b n => f b + n) 0 := by
  induction l with
  | nil => cases mem
  | cons b l ih =>
    rw [List.foldr_cons]
    rcases List.mem_cons.1 mem with e | mem
    · subst e; omega
    · have := ih mem; omega

theorem length_transitions_le_breadth {g : Graph} {n : Node} (mem : n ∈ g.nodes) :
    n.transitions.length + 2 ≤ breadth g := by
  have : n.transitions.length ≤ g.nodes.foldr (fun n total => n.transitions.length + total) 0 :=
    le_foldr_add_of_mem (f := fun n => n.transitions.length) mem
  unfold breadth
  omega

theorem resolve_ok {g : Graph} {s : State} {v : Visit} {n : Node} (h : resolve g s v = .ok n) :
    n ∈ g.nodes ∧ n.name ∉ s.path := by
  unfold resolve at h
  split at h
  · cases h
  · rename_i m hm
    obtain ⟨t, _, hf⟩ := Option.bind_eq_some_iff.1 hm
    split at h
    · cases h
    · rename_i fresh
      cases h
      exact ⟨Graph.mem_of_find? hf, fresh⟩

theorem path_recordVisit {s s' : State} {name : String} {d : Option String}
    (h : s.recordVisit name d = .ok s') : s'.path = s.path := by
  unfold State.recordVisit at h
  split at h
  · cases h; rfl
  · split at h
    · cases h
    · cases h; rfl

theorem follow_ok {g : Graph} {s s' : State} {n : Node} {clean : Bool} {d : Option String}
    {visits : List Visit} {undo : Undo} (mem : n ∈ g.nodes)
    (h : follow g s n clean d = .ok (visits, undo, s')) :
    s'.path = s.path ∧ visits.length ≤ breadth g := by
  have bound := length_transitions_le_breadth mem
  unfold follow at h
  split at h
  · cases h; exact ⟨rfl, by simp; omega⟩
  · cases h; exact ⟨rfl, by simp; omega⟩
  · rename_i targets e
    have := length_distinct_le targets
    simp only [Node.transitions, e] at bound
    cases h; exact ⟨rfl, by simp; omega⟩
  · rename_i targets e
    have := length_distinct_le targets
    simp only [Node.transitions, e] at bound
    split at h
    · cases h
    · cases h; exact ⟨rfl, by simp; omega⟩
  · split at h
    · cases h
    · simp only at h
      split at h
      · cases h
      · cases h; exact ⟨rfl, by simp; omega⟩
  · cases h; exact ⟨rfl, by simp⟩
  · split at h
    · cases h; exact ⟨rfl, by simp⟩
    · cases h

theorem enter_ok {g : Graph} {s s' : State} {v : Visit} {n : Node} {visits : List Visit} {undo : Undo}
    (mem : n ∈ g.nodes) (h : enter g s v n = .ok (visits, undo, s')) :
    s'.path = n.name :: s.path ∧ visits.length ≤ breadth g := by
  unfold enter at h
  simp only at h
  split at h
  · split at h
    · cases h
    · rename_i r hr
      have := follow_ok mem h
      rw [path_recordVisit hr] at this
      exact this
  · exact follow_ok mem h

theorem cost_visits (g : Graph) (visits : List Visit) (rest : List Task) (path : List String) :
    cost g (visits.map Task.visit ++ rest) path = visits.length * visitCost g path + cost g rest path := by
  induction visits with
  | nil => simp
  | cons v visits ih =>
    simp only [List.map_cons, List.cons_append, cost, ih, List.length_cons, Nat.succ_mul]
    omega

theorem visitCost_pos (g : Graph) (path : List String) : 0 < visitCost g path :=
  Nat.pow_pos (by omega)

/-- Entering a node costs less than the visit did. -/
theorem cost_enter_lt {g : Graph} {path : List String} {n : Node} {visits : List Visit} {undo : Undo}
    {rest : List Task} {v : Visit} (mem : n ∈ g.nodes) (fresh : n.name ∉ path)
    (few : visits.length ≤ breadth g) :
    cost g (visits.map Task.visit ++ .leave undo :: rest) (n.name :: path) <
      cost g (.visit v :: rest) path := by
  rw [cost_visits]
  simp only [cost, List.tail_cons]
  have fewer := Graph.unvisited_cons_lt mem fresh
  have step : (breadth g + 2) * visitCost g (n.name :: path) ≤ visitCost g path := by
    rw [Nat.mul_comm]
    exact Nat.pow_le_pow_right (Nat.succ_pos _) fewer
  have inner : visits.length * visitCost g (n.name :: path) ≤
      breadth g * visitCost g (n.name :: path) := Nat.mul_le_mul_right _ few
  have pos := visitCost_pos g (n.name :: path)
  rw [Nat.add_mul] at step
  omega

/-- Takes steps until no task is left. -/
def run (g : Graph) (s : State) (tasks : List Task) : Except Fault Unit :=
  match tasks with
  | [] => .ok ()
  | .leave undo :: rest => run g (s.leave undo) rest
  | .visit v :: rest =>
    match _hr : resolve g s v with
    | .error fault => .error fault
    | .ok n =>
      match _he : enter g s v n with
      | .error fault => .error fault
      | .ok (visits, undo, s') => run g s' (visits.map .visit ++ .leave undo :: rest)
termination_by cost g tasks s.path
decreasing_by
  · cases undo <;> simp [cost, State.leave]
  · have found := resolve_ok _hr
    have entered := enter_ok found.1 _he
    rw [entered.1]
    exact cost_enter_lt found.1 found.2 entered.2

end WorkflowCompiler.ForkJoin

namespace WorkflowCompiler

/-- Checks the forks and joins of a graph, whose structure has been reported. Without forks there
    is nothing to check. -/
def Graph.checkForkJoin (g : Graph) (report : StructureReport) : Except Fault Unit :=
  if report.forks.length ≠ report.joins.length then
    .error (.unbalancedForks report.forks.length report.joins.length)
  else if report.forks.isEmpty then .ok ()
  else
    match g.start with
    | .error fault => .error fault
    | .ok start => ForkJoin.run g {} [.visit ⟨some start.name, true, none⟩]

end WorkflowCompiler
