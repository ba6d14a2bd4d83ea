import WorkflowCompiler.Proofs.ForkJoin.Pairing
import WorkflowCompiler.Proofs.ForkJoin.Recursion

/-!
The loop of the walk with all that it keeps. Beside the path there is a set of the names
on it, which is asked whether a node closes a cycle. Entering a node puts its name into
both, and a task that runs much later takes it out of both again (`trackedTurn`). At
every turn the walk stands on a trail: the set has the names on the path, each is there
once, the forks are those on the trail that no later join closes, and no join is kept
without a fork (`Consistent`). The tasks that are left tell on which trail it stands
(`Pending.unique`), so when the tasks of a visit have run, the path, the set and the
forks are what they were before it (`Graph.checkForkJoin_reached`).
-/
namespace WorkflowCompiler
namespace ForkJoin

/-- A state of the walk, with the names on the path as a set. -/
structure Tracked extends State where
  onPath : Finset String := ∅

/-- A step of the walk that is still to be taken. Leaving a node takes its name out of the set. -/
inductive Chore
  | visit (v : Visit)
  | leave (name : String) (undo : Undo)

/-- The step as it is for a walk without the set. -/
def Chore.task : Chore → Task
  | .visit v => .visit v
  | .leave _ undo => .leave undo

/-- The node that a visit leads to, unless the set has its name. -/
def Tracked.resolve (g : Graph) (t : Tracked) (v : Visit) : Except Fault Node :=
  match v.target.bind g.find? with
  | none => .error (.danglingTransition t.path.head? v.target)
  | some n =>
    if n.name ∈ t.onPath then .error (.cycleOnPath n.name (t.path.reverse ++ [n.name])) else .ok n

/-- One turn of the loop takes the next task. -/
def trackedTurn (g : Graph) : Tracked × List Chore → Except Fault Unit ⊕ Tracked × List Chore
  | (_, []) => .inl (.ok ())
  | (t, .leave name undo :: rest) => .inr (⟨t.leave undo, t.onPath.erase name⟩, rest)
  | (t, .visit v :: rest) =>
    match t.resolve g v with
    | .error fault => .inl (.error fault)
    | .ok n =>
      match enter g t.toState v n with
      | .error fault => .inl (.error fault)
      | .ok (visits, undo, inner) =>
        .inr (⟨inner, insert n.name t.onPath⟩, visits.map .visit ++ .leave n.name undo :: rest)

/-- From one turn on the loop comes to another one. -/
def Turns (g : Graph) : Tracked × List Chore → Tracked × List Chore → Prop :=
  Relation.ReflTransGen fun before after => trackedTurn g before = .inr after

/-- What the check of a graph comes to at its turns. It starts to walk where the report lists as many
    joins as forks, and lists some. -/
inductive Reached (g : Graph) (report : StructureReport) : Tracked × List Chore → Prop
  | start {start : Node} (balanced : report.forks.length = report.joins.length) (forked : report.forks ≠ [])
      (first : g.start? = some start) : Reached g report ({}, [.visit ⟨some start.name, true, none⟩])
  | turn {before after : Tracked × List Chore} (reached : Reached g report before)
      (took : trackedTurn g before = .inr after) : Reached g report after

/-- The path, the set, the forks and the joins as they belong to the trail on which the walk stands. The
    trail is empty before the start node is entered, and after it was left. -/
structure Consistent (g : Graph) (t : Tracked) (p : List Node) : Prop where
  trail : p = [] ∨ g.Trail g.Leads p
  path : t.path = p.map Node.name
  distinct : t.path.Nodup
  onPath : t.onPath = t.path.toFinset
  /-- The forks are those on the trail that no later join on it closes, in the order of the trail. -/
  forks : ∃ opened : List Node, opened.Sublist p ∧ (∀ f, f ∈ opened ↔ f ∈ p ∧ f.kind = .fork ∧ ¬ ClosedOn p f) ∧
    t.forks = opened.map Node.name
  few : t.joins.length ≤ t.forks.length

variable {g : Graph} {report : StructureReport} {p q : List Node} {s inner last final : State} {v : Visit} {n : Node}
  {visits : List Visit} {undo : Undo} {entries : List Entry} {t later : Tracked} {tasks rest : List Chore}
  {here next : Tracked × List Chore} {name : String}

/-! ### The joins -/

theorem few_leave (few : s.joins.length ≤ s.forks.length) (undo : Undo) :
    (s.leave undo).joins.length ≤ (s.leave undo).forks.length := by
  cases undo with
  | nothing => exact few
  | closeFork =>
    simp only [State.leave, List.length_tail]
    omega
  | reopenFork fork join =>
    simp only [State.leave, List.length_cons]
    omega

/-- Where a fork is open, a join finds one to be compared with: an earlier one, or itself. -/
theorem expectJoin_ne_nil (opened : s.forks ≠ []) (name : String) : s.expectJoin name ≠ [] := by
  unfold State.expectJoin
  split
  · exact List.cons_ne_nil _ _
  · rename_i settled
    intro none
    exact settled ⟨by rw [none]; exact List.length_pos_iff.mpr opened, by simp [none]⟩

/-- A join inside a fork passes exactly if it is the one that is expected. -/
theorem enter_join (isJoin : n.kind = .join) {fork : String} {outer : List String} (opened : s.forks = fork :: outer) :
    ∃ result, enter g s v n =
      if (s.expectJoin n.name).head? = some n.name then .ok result
      else .error (.joinMismatch fork n.name (s.expectJoin n.name).head?) := by
  have often : runsOnce n = false := by simp [runsOnce, isJoin]
  cases body : n.body with
  | join targets =>
    simp only [enter, often, Bool.and_false, Bool.false_eq_true, ↓reduceIte, follow, body, opened, State.expectJoin, ite_not]
    exact ⟨_, rfl⟩
  | _ => simp [Node.kind, body] at isJoin

/-- A join inside a fork is compared with the one on top of the joins. There is one, since a join that finds
    none is put there itself. -/
theorem compares_join (found : t.resolve g v = .ok n) (isJoin : n.kind = .join) {fork : String} {outer : List String}
    (opened : t.forks = fork :: outer) :
    ∃ expected others, t.expectJoin n.name = expected :: others ∧
      (expected = n.name → ∃ next, trackedTurn g (t, .visit v :: rest) = .inr next) ∧
      (expected ≠ n.name →
        trackedTurn g (t, .visit v :: rest) = .inl (.error (.joinMismatch fork n.name (some expected)))) := by
  have some : t.expectJoin n.name ≠ [] := expectJoin_ne_nil (by rw [opened]; exact List.cons_ne_nil _ _) n.name
  obtain ⟨expected, others, top⟩ := List.exists_cons_of_ne_nil some
  obtain ⟨⟨visits, undo, inner⟩, entered⟩ := enter_join (g := g) (v := v) isJoin opened
  rw [top, List.head?_cons] at entered
  refine ⟨expected, others, top, fun same => ?_, fun other => ?_⟩
  · rw [if_pos (by rw [same])] at entered
    exact ⟨_, by simp only [trackedTurn, found, entered]; rfl⟩
  · rw [if_neg (fun same => other (Option.some.inj same))] at entered
    simp only [trackedTurn, found, entered]

/-! ### The tasks that are left -/

/-- What is left to do where the walk stands on a trail: visits that go on from there, the leaving of the
    last node, and what is left where that node was entered. -/
inductive Pending (g : Graph) : List Node → List Chore → Prop
  | outside {visits : List Visit} (along : ∀ v ∈ visits, v.Continues g []) : Pending g [] (visits.map .visit)
  | inside {n : Node} {p : List Node} {visits : List Visit} {undo : Undo} {rest : List Chore}
      (trail : g.Trail g.Leads (n :: p)) (along : ∀ v ∈ visits, v.Continues g (n :: p))
      (restores : ∀ s, At s (n :: p) → At (s.leave undo) p) (before : Pending g p rest) :
      Pending g (n :: p) (visits.map .visit ++ .leave n.name undo :: rest)

theorem Pending.trail (pending : Pending g p tasks) : p = [] ∨ g.Trail g.Leads p := by
  cases pending with
  | outside _ => exact .inl rfl
  | inside trail _ _ _ => exact .inr trail

theorem Pending.of_visit (pending : Pending g p (.visit v :: rest)) : v.Continues g p ∧ Pending g p rest := by
  generalize left : Chore.visit v :: rest = tasks at pending
  cases pending with
  | @outside visits along =>
    cases visits with
    | nil => cases left
    | cons w visits =>
      cases left
      exact ⟨along v (List.mem_cons_self ..), .outside fun u later => along u (List.mem_cons_of_mem _ later)⟩
  | @inside n p visits undo before trail along restores pending =>
    cases visits with
    | nil => cases left
    | cons w visits =>
      cases left
      exact ⟨along v (List.mem_cons_self ..),
        .inside trail (fun u later => along u (List.mem_cons_of_mem _ later)) restores pending⟩

theorem Pending.of_leave (pending : Pending g p (.leave name undo :: rest)) :
    ∃ n q, p = n :: q ∧ n.name = name ∧ (∀ s, At s p → At (s.leave undo) q) ∧ Pending g q rest := by
  generalize left : Chore.leave name undo :: rest = tasks at pending
  cases pending with
  | @outside visits _ =>
    cases visits <;> cases left
  | @inside n p visits undo before trail along restores pending =>
    cases visits with
    | nil =>
      cases left
      exact ⟨n, p, rfl, rfl, restores, pending⟩
    | cons w visits => cases left

/-- The names of the nodes that are still to be left. -/
def Chore.left? : Chore → Option String
  | .visit _ => none
  | .leave name _ => some name

theorem Pending.names (pending : Pending g p tasks) : tasks.filterMap Chore.left? = p.map Node.name := by
  have none (visits : List Visit) : (visits.map Chore.visit).filterMap Chore.left? = [] := by
    simp [Chore.left?]
  induction pending with
  | outside _ => exact none _
  | inside _ _ _ _ ih =>
    simp only [List.filterMap_append, none, List.nil_append, List.filterMap_cons, Chore.left?, ih, List.map_cons]

/-- What is left to do tells on which trail the walk stands. -/
theorem Pending.unique (one : Pending g p tasks) (other : Pending g q tasks) : p = q := by
  have members {p : List Node} (pending : Pending g p tasks) : ∀ n ∈ p, n ∈ g.nodes := by
    rcases pending.trail with rfl | trail
    · exact fun _ member => nomatch member
    · exact trail.mem
  exact Graph.eq_of_names_eq (members one) (members other) (one.names.symm.trans other.names)

/-! ### What a turn keeps -/

/-- What every turn keeps where the walk stands on a trail. The tasks are part of it: what a later task undoes
    depends on the trail on which it was put there. -/
structure Steady (g : Graph) (p : List Node) (t : Tracked) (tasks : List Chore) : Prop where
  position : At t.toState p
  pending : Pending g p tasks
  distinct : t.path.Nodup
  onPath : t.onPath = t.path.toFinset
  few : t.joins.length ≤ t.forks.length

theorem Tracked.resolve_eq (same : t.onPath = t.path.toFinset) (v : Visit) :
    t.resolve g v = ForkJoin.resolve g t.toState v := by
  unfold Tracked.resolve ForkJoin.resolve
  cases v.target.bind g.find? with
  | none => rfl
  | some n => simp only [same, List.mem_toFinset]

theorem Steady.enter (steady : Steady g p t (.visit v :: rest)) (found : t.resolve g v = .ok n)
    (entered : ForkJoin.enter g t.toState v n = .ok (visits, undo, inner)) :
    Steady g (n :: p) ⟨inner, insert n.name t.onPath⟩ (visits.map .visit ++ .leave n.name undo :: rest) := by
  rw [Tracked.resolve_eq steady.onPath] at found
  obtain ⟨member, fresh⟩ := resolve_ok found
  obtain ⟨along, before⟩ := steady.pending.of_visit
  have path : inner.path = n.name :: t.path := (enter_ok member entered).1
  refine ⟨at_enter steady.position entered, ?_, ?_, ?_, few_enter entered steady.few⟩
  · exact .inside (along.leads n (target_of_resolve found)) (continues_of_enter along found entered)
      (fun _ standing => leave_of_enter steady.position entered standing) before
  · rw [path]
    exact List.nodup_cons.mpr ⟨fresh, steady.distinct⟩
  · rw [path, List.toFinset_cons, steady.onPath]

theorem Steady.leave (steady : Steady g p t (.leave name undo :: rest)) :
    ∃ q, Steady g q ⟨t.leave undo, t.onPath.erase name⟩ rest := by
  obtain ⟨n, q, rfl, rfl, restores, before⟩ := steady.pending.of_leave
  have path : t.path = n.name :: q.map Node.name := steady.position.path
  have shorter : (t.leave undo).path = q.map Node.name := by rw [path_leave, path, List.tail_cons]
  have distinct := steady.distinct
  rw [path, List.nodup_cons] at distinct
  refine ⟨q, restores _ steady.position, before, ?_, ?_, few_leave steady.few undo⟩
  · rw [shorter]
    exact distinct.2
  -- The name that the set loses is nowhere else on the path.
  · rw [shorter, steady.onPath, path, List.toFinset_cons,
      Finset.erase_insert (by rw [List.mem_toFinset]; exact distinct.1)]

/-- Everything that a turn does after which the loop goes on. -/
theorem trackedTurn_cases (took : trackedTurn g (t, tasks) = .inr next) :
    (∃ name undo rest, tasks = .leave name undo :: rest ∧ next = (⟨t.leave undo, t.onPath.erase name⟩, rest)) ∨
    ∃ v n visits undo inner rest, tasks = .visit v :: rest ∧ t.resolve g v = .ok n ∧
      enter g t.toState v n = .ok (visits, undo, inner) ∧
      next = (⟨inner, insert n.name t.onPath⟩, visits.map .visit ++ .leave n.name undo :: rest) := by
  cases tasks with
  | nil => cases took
  | cons task rest =>
    cases task with
    | leave name undo =>
      cases took
      exact .inl ⟨name, undo, rest, rfl, rfl⟩
    | visit v =>
      simp only [trackedTurn] at took
      split at took
      · cases took
      · rename_i n found
        split at took
        · cases took
        · rename_i visits undo inner entered
          cases took
          exact .inr ⟨v, n, visits, undo, inner, rest, rfl, found, entered, rfl⟩

theorem Steady.turn (steady : Steady g p t tasks) (took : trackedTurn g (t, tasks) = .inr next) :
    ∃ q, Steady g q next.1 next.2 := by
  rcases trackedTurn_cases took with ⟨name, undo, rest, rfl, rfl⟩ | ⟨v, n, visits, undo, inner, rest, rfl, found, entered, rfl⟩
  · exact steady.leave
  · exact ⟨n :: p, steady.enter found entered⟩

theorem Reached.steady (reached : Reached g report here) : ∃ p, Steady g p here.1 here.2 := by
  induction reached with
  | start _ _ first =>
    have pending : Pending g [] ([_].map .visit) := .outside (continues_start first)
    exact ⟨[], at_start, pending, List.nodup_nil, rfl, Nat.le_refl _⟩
  | turn _ took ih =>
    obtain ⟨p, steady⟩ := ih
    exact steady.turn took

theorem Steady.consistent (steady : Steady g p t tasks) : Consistent g t p where
  trail := steady.pending.trail
  path := steady.position.path
  distinct := steady.distinct
  onPath := steady.onPath
  forks := by
    have distinct := steady.distinct
    rw [steady.position.path] at distinct
    exact ⟨openForks p, openForks_sublist p, fun f => mem_openForks_iff (distinct.of_map _), steady.position.forks⟩
  few := steady.few

/-! ### The loop and the check -/

/-- A turn as it is for a walk without the set. -/
def untracked (x : Tracked × List Chore) : State × List Task := (x.1.toState, x.2.map Chore.task)

/-- Asking the set or the path makes no difference to a turn. -/
theorem turn_untracked (same : t.onPath = t.path.toFinset) (tasks : List Chore) :
    turn g (untracked (t, tasks)) = (trackedTurn g (t, tasks)).map id untracked := by
  cases tasks with
  | nil => rfl
  | cons task rest =>
    cases task with
    | leave name undo => rfl
    | visit v =>
      simp only [untracked, List.map_cons, Chore.task, turn, trackedTurn, Tracked.resolve_eq same]
      cases resolve g t.toState v with
      | error fault => rfl
      | ok n =>
        dsimp only
        cases enter g t.toState v n with
        | error fault => rfl
        | ok result => simp [untracked, Chore.task, Function.comp_def]

theorem Reached.turn_untracked (reached : Reached g report here) :
    ForkJoin.turn g (untracked here) = (trackedTurn g here).map id untracked := by
  obtain ⟨p, steady⟩ := reached.steady
  exact ForkJoin.turn_untracked steady.onPath here.2

/-- The check ends as the walk does from any of its turns. -/
theorem Reached.check (reached : Reached g report here) :
    g.checkForkJoin report = run g (untracked here).1 (untracked here).2 := by
  induction reached with
  | start balanced forked first =>
    simp only [Graph.checkForkJoin, Graph.start, first, balanced, ne_eq, not_true_eq_false, ↓reduceIte,
      List.isEmpty_iff, forked]
    rfl
  | turn reached took ih =>
    rw [ih, run_turn, reached.turn_untracked, took]
    rfl

/-- From any of its turns the loop goes on to a last one, which ends the check. -/
theorem Reached.ends {here : Tracked × List Chore} (reached : Reached g report here) :
    ∃ last, Turns g here last ∧ trackedTurn g last = .inl (g.checkForkJoin report) := by
  have same := reached.turn_untracked
  cases took : trackedTurn g here with
  | inl outcome =>
    refine ⟨here, .refl, took.trans ?_⟩
    rw [reached.check, run_turn, same, took]
    rfl
  | inr next =>
    obtain ⟨last, turns, ends⟩ := Reached.ends (reached.turn took)
    exact ⟨last, .head took turns, ends⟩
termination_by cost g (untracked here).2 (untracked here).1.path
decreasing_by
  rw [took] at same
  exact cost_turn g (untracked here) (untracked next) same

theorem Reached.turns (reached : Reached g report here) (turns : Turns g here next) : Reached g report next := by
  induction turns with
  | refl => exact reached
  | tail _ took ih => exact ih.turn took

/-- A walk that succeeds is a stretch of turns, after which the set is what it was. -/
theorem Walks.turns (walks : Walks g p s visits entries final) {onPath : Finset String}
    (same : onPath = s.path.toFinset) (rest : List Chore) :
    Turns g (⟨s, onPath⟩, visits.map .visit ++ rest) (⟨final, onPath⟩, rest) := by
  induction walks generalizing onPath rest with
  | done => exact .refl
  | @visit p s inner last final v visits others n undo below after found entered inside onward ihInside ihOnward =>
    obtain ⟨member, fresh⟩ := resolve_ok found
    have path : inner.path = n.name :: s.path := (enter_ok member entered).1
    have unseen : n.name ∉ onPath := by rwa [same, List.mem_toFinset]
    have back : (last.leave undo).path = s.path := by rw [path_leave, inside.path, path, List.tail_cons]
    have enters : trackedTurn g (⟨s, onPath⟩, .visit v :: (others.map .visit ++ rest)) =
        .inr (⟨inner, insert n.name onPath⟩, visits.map .visit ++ .leave n.name undo :: (others.map .visit ++ rest)) := by
      simp only [trackedTurn, Tracked.resolve_eq (t := ⟨s, onPath⟩) same, found, entered]
    have leaves : trackedTurn g (⟨last, insert n.name onPath⟩, .leave n.name undo :: (others.map .visit ++ rest)) =
        .inr (⟨last.leave undo, onPath⟩, others.map .visit ++ rest) := by
      simp only [trackedTurn, Finset.erase_insert unseen]
    have longer : insert n.name onPath = inner.path.toFinset := by rw [path, List.toFinset_cons, same]
    have within := ihInside longer (.leave n.name undo :: (others.map .visit ++ rest))
    -- Into the node, through all that comes after it, out of it again, and on to the other visits.
    exact .head enters (within.trans (.head leaves (ihOnward (by rw [back, same]) rest)))

/-- When the tasks of a visit have run, all is as it was before; and they all run, if the check passes. -/
theorem Reached.restores (reached : Reached g report (t, .visit v :: rest)) :
    (∀ later, Turns g (t, .visit v :: rest) (later, rest) →
      later.path = t.path ∧ later.onPath = t.onPath ∧ later.forks = t.forks) ∧
      ((∃ later, Turns g (t, .visit v :: rest) (later, rest)) ∨ ∃ fault, g.checkForkJoin report = .error fault) := by
  obtain ⟨p, steady⟩ := reached.steady
  refine ⟨fun later turns => ?_, ?_⟩
  -- The same tasks are left as before the visit, so the walk stands on the same trail.
  · obtain ⟨q, after⟩ := (reached.turns turns).steady
    obtain rfl : p = q := steady.pending.of_visit.2.unique after.pending
    have path : later.path = t.path := after.position.path.trans steady.position.path.symm
    exact ⟨path, by rw [after.onPath, steady.onPath, path], after.position.forks.trans steady.position.forks.symm⟩
  · rcases walks_or_fails g p t.toState [v] with ⟨entries, final, walks⟩ | ⟨fault, fails⟩
    · exact .inl ⟨_, walks.turns steady.onPath rest⟩
    · exact .inr ⟨fault, reached.check.trans (run_of_fails fails _)⟩

end ForkJoin

open ForkJoin

/-- At every turn the walk stands on a trail, with the path, the set, the forks and the joins that belong to it, and
    goes on to a last turn that ends the check. A join inside a fork is compared with the join on top, which is always
    there. When the tasks of a visit have run, path, set and forks are back; and they run, or the check has failed. -/
theorem Graph.checkForkJoin_reached (g : Graph) (report : StructureReport) :
    (∀ t tasks, Reached g report (t, tasks) → (∃ p, Consistent g t p) ∧
      ∃ last, Turns g (t, tasks) last ∧ trackedTurn g last = .inl (g.checkForkJoin report)) ∧
    ∀ t v rest, Reached g report (t, .visit v :: rest) →
      (∀ n fork outer, t.resolve g v = .ok n → n.kind = .join → t.forks = fork :: outer →
        ∃ expected others, t.expectJoin n.name = expected :: others ∧
          (expected = n.name → ∃ next, trackedTurn g (t, .visit v :: rest) = .inr next) ∧
          (expected ≠ n.name →
            trackedTurn g (t, .visit v :: rest) = .inl (.error (.joinMismatch fork n.name (some expected))))) ∧
      (∀ later, Turns g (t, .visit v :: rest) (later, rest) →
        later.path = t.path ∧ later.onPath = t.onPath ∧ later.forks = t.forks) ∧
      ((∃ later, Turns g (t, .visit v :: rest) (later, rest)) ∨ ∃ fault, g.checkForkJoin report = .error fault) := by
  refine ⟨fun t tasks reached => ?_, fun t v rest reached => ⟨?_, reached.restores⟩⟩
  · obtain ⟨p, steady⟩ := reached.steady
    exact ⟨⟨p, steady.consistent⟩, reached.ends⟩
  · intro n fork outer found isJoin opened
    exact compares_join found isJoin opened

/-- The left branch comes to its join while the inner fork is still to be walked. -/
theorem Graph.reached_nestedForks :
    ∃ t rest, Reached nestedForks ⟨["split", "inner"], ["meet", "close"], 10⟩ (t, .visit ⟨some "meet", true, none⟩ :: rest) ∧
      t.path = ["left", "split", startName] ∧ t.onPath = {"left", "split", startName} ∧ t.forks = ["split"] ∧
      t.joins = [] ∧ t.expectJoin "meet" = ["meet"] ∧ (∃ p, Consistent nestedForks t p) ∧
      (∃ next, trackedTurn nestedForks (t, .visit ⟨some "meet", true, none⟩ :: rest) = .inr next) ∧
      ∃ later, Turns nestedForks (t, .visit ⟨some "meet", true, none⟩ :: rest) (later, rest) ∧
        later.path = ["left", "split", startName] := by
  obtain ⟨stands, visits⟩ := checkForkJoin_reached nestedForks ⟨["split", "inner"], ["meet", "close"], 10⟩
  have first : nestedForks.start? = some ⟨startName, .start ["split"]⟩ := rfl
  have begins : Reached nestedForks ⟨["split", "inner"], ["meet", "close"], 10⟩ ({}, [.visit ⟨some startName, true, none⟩]) :=
    .start rfl (List.cons_ne_nil _ _) first
  have reached := ((begins.turn rfl).turn rfl).turn rfl
  obtain ⟨compares, restored, runs⟩ := visits _ _ _ reached
  obtain ⟨expected, others, top, passes, _⟩ := compares ⟨"meet", .join ["done"]⟩ "split" [] rfl rfl rfl
  have same : expected = "meet" := (List.cons.inj top).1.symm
  refine ⟨_, _, reached, rfl, rfl, rfl, rfl, rfl, (stands _ _ reached).1, passes same, ?_⟩
  rcases runs with ⟨later, turns⟩ | ⟨fault, stops⟩
  · exact ⟨later, turns, (restored later turns).1⟩
  · rw [checkForkJoin_nestedForks] at stops
    cases stops

end WorkflowCompiler
