import WorkflowCompiler.Proofs.Cycle

/-!
The structural walk with a mark for every node that it has met. A node is marked as
visiting when it is entered, and as visited when it is left, or at once where a walk
ends; every open node counts how many of its transitions were followed (`markedTurn`).
The marks say what the stack and the names that are done say (`Tells`), so the loop
takes the turns of the walk and ends as it does (`Graph.checkStructure_marked`). At
every turn the nodes marked as visiting are those on the stack, and whatever a visited
node leads to is visited too (`Marked.Settled`).
-/
namespace WorkflowCompiler
namespace Structure

/-- How far the walk is with a node. -/
inductive Mark
  | visiting
  | visited
deriving DecidableEq, Repr

/-- An open node, with the number of its transitions that were followed. -/
structure Stop where
  node : Node
  next : Nat := 0

/-- The walk with its marks. -/
structure Marked where
  /-- The nodes from the current one back to the start. -/
  stack : List Stop := []
  marks : Dict Mark := .empty
  report : StructureReport := {}

def Marked.openNames (m : Marked) : List String := m.stack.map fun s => s.node.name

/-- Enters a node, which stays open unless a walk ends there. -/
def Marked.enter (m : Marked) (n : Node) : Marked :=
  let marks := m.marks.put n.name .visiting
  let report := StructureReport.addNode m.report n
  if isTerminal n then ⟨m.stack, marks.put n.name .visited, report⟩ else ⟨⟨n, 0⟩ :: m.stack, marks, report⟩

/-- One turn of the loop follows the next transition of the innermost open node, or leaves that node. -/
def markedTurn (g : Graph) (r : Registry) (m : Marked) : Except Fault StructureReport ⊕ Marked :=
  match m.stack with
  | [] => .inl (.ok m.report)
  | ⟨n, next⟩ :: below =>
    match n.transitions[next]? with
    | none => .inr { m with stack := below, marks := m.marks.put n.name .visited }
    | some t =>
      match g.find? t with
      | none => .inl (.error (.danglingTransition (some n.name) (some t)))
      | some target =>
        match m.marks.get? target.name with
        | some .visiting => .inl (.error (.cycleClosing target.name (cycleAt m.openNames target.name)))
        | some .visited => .inr { m with stack := ⟨n, next + 1⟩ :: below }
        | none =>
          match checkNode r target with
          | .error fault => .inl (.error fault)
          | .ok () => .inr (Marked.enter { m with stack := ⟨n, next + 1⟩ :: below } target)

/-- What the marks say at every turn. -/
structure Marked.Settled (g : Graph) (m : Marked) : Prop where
  distinct : m.openNames.Nodup
  visiting : ∀ name, m.marks.get? name = some .visiting ↔ name ∈ m.openNames
  /-- All that a visited node leads to is visited, unless a walk ends at the node. -/
  visited : ∀ n ∈ g.nodes, m.marks.get? n.name = some .visited → isTerminal n = false →
    ∀ t ∈ n.transitions, ∃ target, g.find? t = some target ∧ m.marks.get? target.name = some .visited

/-! ### The marks and the walk -/

/-- An open node with the transitions that are left. -/
def Stop.frame (s : Stop) : Frame := ⟨s.node, s.node.transitions.drop s.next⟩

/-- The marks say which nodes are open and which are done. -/
structure Tells (m : Marked) (w : Walk) : Prop where
  stack : m.stack.map Stop.frame = w.stack
  report : m.report = w.report
  visiting : ∀ name, m.marks.get? name = some .visiting ↔ name ∈ w.openNames
  visited : ∀ name, m.marks.get? name = some .visited ↔ name ∈ w.done

variable {g : Graph} {r : Registry} {m : Marked} {w : Walk} {n target : Node} {t : String} {next : Nat} {below : List Stop}

theorem Tells.openNames (tells : Tells m w) : m.openNames = w.openNames := by
  rw [Walk.openNames, ← tells.stack, List.map_map]
  rfl

/-- A name without a mark was not met. -/
theorem Tells.fresh (tells : Tells m w) {name : String} (unmarked : m.marks.get? name = none) :
    name ∉ w.openNames ∧ name ∉ w.done := by
  constructor
  · intro isOpen
    rw [(tells.visiting name).mpr isOpen] at unmarked
    cases unmarked
  · intro isDone
    rw [(tells.visited name).mpr isDone] at unmarked
    cases unmarked

theorem Stop.frame_done (ended : n.transitions[next]? = none) : Stop.frame ⟨n, next⟩ = ⟨n, []⟩ := by
  rw [Stop.frame, List.drop_eq_nil_of_le (List.getElem?_eq_none_iff.mp ended)]

theorem Stop.frame_follow (onward : n.transitions[next]? = some t) :
    Stop.frame ⟨n, next⟩ = ⟨n, t :: n.transitions.drop (next + 1)⟩ := by
  obtain ⟨inside, rfl⟩ := List.getElem?_eq_some_iff.mp onward
  rw [Stop.frame, List.drop_eq_getElem_cons inside]

theorem Tells.leave (tells : Tells m w) (top : m.stack = ⟨n, next⟩ :: below) (distinct : w.openNames.Nodup) :
    Tells { m with stack := below, marks := m.marks.put n.name .visited }
      { w with stack := below.map Stop.frame, done := n.name :: w.done } := by
  have names : w.openNames = n.name :: (below.map Stop.frame).map (·.node.name) := by
    rw [Walk.openNames, ← tells.stack, top]
    rfl
  rw [names, List.nodup_cons] at distinct
  refine ⟨rfl, tells.report, fun name => ?_, fun name => ?_⟩
  · rw [Dict.get?_put]
    split
    · rename_i same
      subst same
      exact iff_of_false (by decide) distinct.1
    · rename_i other
      rw [tells.visiting name, names, List.mem_cons]
      exact or_iff_right other
  · rw [Dict.get?_put, List.mem_cons]
    split
    · rename_i same
      exact iff_of_true rfl (.inl same)
    · rename_i other
      rw [tells.visited name]
      exact (or_iff_right other).symm

/-- Counting a transition that was followed changes no mark. -/
theorem Tells.follow (tells : Tells m w) (top : m.stack = ⟨n, next⟩ :: below) :
    Tells { m with stack := ⟨n, next + 1⟩ :: below }
      { w with stack := ⟨n, n.transitions.drop (next + 1)⟩ :: below.map Stop.frame } := by
  have names : w.openNames = n.name :: (below.map Stop.frame).map (·.node.name) := by
    rw [Walk.openNames, ← tells.stack, top]
    rfl
  refine ⟨rfl, tells.report, fun name => ?_, tells.visited⟩
  rw [tells.visiting name, names]
  rfl

theorem Tells.enter (tells : Tells m w) (unmarked : m.marks.get? target.name = none) :
    Tells (m.enter target) (w.enter target) := by
  obtain ⟨notOpen, notDone⟩ := tells.fresh unmarked
  unfold Marked.enter Walk.enter
  split
  · refine ⟨tells.stack, congrArg (StructureReport.addNode · target) tells.report, fun name => ?_, fun name => ?_⟩
    · rw [Dict.get?_put, Dict.get?_put]
      split
      · rename_i same
        subst same
        exact iff_of_false (by decide) notOpen
      · exact tells.visiting name
    · rw [Dict.get?_put, Dict.get?_put, List.mem_cons]
      split
      · rename_i same
        exact iff_of_true rfl (.inl same)
      · rename_i other
        rw [tells.visited name]
        exact (or_iff_right other).symm
  · refine ⟨congrArg (_ :: ·) tells.stack, congrArg (StructureReport.addNode · target) tells.report, fun name => ?_,
      fun name => ?_⟩
    · rw [Dict.get?_put, Walk.openNames, List.map_cons, List.mem_cons]
      split
      · rename_i same
        exact iff_of_true rfl (.inl same)
      · rename_i other
        rw [tells.visiting name]
        exact (or_iff_right other).symm
    · rw [Dict.get?_put]
      split
      · rename_i same
        subst same
        exact iff_of_false (by decide) notDone
      · exact tells.visited name

/-- The loop with marks takes the turn that the walk takes, and the marks still tell. -/
theorem Tells.turn (tells : Tells m w) (distinct : w.openNames.Nodup) :
    (∃ outcome, markedTurn g r m = .inl outcome ∧ turn g r w = .inl outcome) ∨
      ∃ m' w', markedTurn g r m = .inr m' ∧ turn g r w = .inr w' ∧ Tells m' w' := by
  have frames := tells.stack
  unfold markedTurn Structure.turn
  split
  · rename_i empty
    rw [empty, List.map_nil] at frames
    rw [← frames, tells.report]
    exact .inl ⟨_, rfl, rfl⟩
  · rename_i n next below top
    rw [top, List.map_cons] at frames
    split
    · rename_i ended
      rw [Stop.frame_done ended] at frames
      rw [← frames]
      exact .inr ⟨_, _, rfl, rfl, tells.leave top distinct⟩
    · rename_i t onward
      rw [Stop.frame_follow onward] at frames
      rw [← frames]
      dsimp only
      cases g.find? t with
      | none => exact .inl ⟨_, rfl, rfl⟩
      | some target =>
        dsimp only
        cases marked : m.marks.get? target.name with
        | some mark =>
          cases mark with
          | visiting =>
            rw [if_pos ((tells.visiting _).mp marked), tells.openNames]
            exact .inl ⟨_, rfl, rfl⟩
          | visited =>
            have notOpen : target.name ∉ w.openNames := fun isOpen => by
              rw [(tells.visiting _).mpr isOpen] at marked
              cases marked
            rw [if_neg notOpen, if_pos ((tells.visited _).mp marked)]
            exact .inr ⟨_, _, rfl, rfl, tells.follow top⟩
        | none =>
          obtain ⟨notOpen, notDone⟩ := tells.fresh marked
          rw [if_neg notOpen, if_neg notDone]
          cases checkNode r target with
          | error fault => exact .inl ⟨_, rfl, rfl⟩
          | ok _ => exact .inr ⟨_, _, rfl, rfl, (tells.follow top).enter marked⟩

/-! ### The loop -/

theorem Invariant.openNames_nodup (inv : Invariant g r w) : w.openNames.Nodup := (List.nodup_append.mp inv.distinct).1

theorem Tells.settled (tells : Tells m w) (inv : Invariant g r w) : m.Settled g where
  distinct := by
    rw [tells.openNames]
    exact inv.openNames_nodup
  visiting name := by rw [tells.visiting name, tells.openNames]
  visited n member isVisited going t transition := by
    obtain ⟨target, found, isDone⟩ := inv.closed.target member ((tells.visited _).mp isVisited) going transition
    exact ⟨target, found, (tells.visited _).mpr isDone⟩

/-- Wherever the loop comes to, the walk comes to, too. -/
theorem Tells.turns (tells : Tells m w) (inv : Invariant g r w) {last : Marked}
    (turns : Relation.ReflTransGen (fun before after => markedTurn g r before = .inr after) m last) :
    ∃ v, Tells last v ∧ Invariant g r v := by
  induction turns with
  | refl => exact ⟨w, tells, inv⟩
  | tail _ took ih =>
    obtain ⟨v, tells, inv⟩ := ih
    rcases tells.turn (g := g) (r := r) inv.openNames_nodup with ⟨outcome, ends, _⟩ | ⟨m', v', goes, took', tells'⟩
    · rw [took] at ends
      cases ends
    · rw [took] at goes
      cases goes
      exact ⟨v', tells', inv.turn took'⟩

theorem Tells.loop (tells : Tells m w) (inv : Invariant g r w) (k : Nat) :
    loop (markedTurn g r) k m = loop (Structure.turn g r) k w := by
  induction k generalizing m w with
  | zero => rfl
  | succ k ih =>
    rw [WorkflowCompiler.loop, WorkflowCompiler.loop]
    rcases tells.turn (g := g) (r := r) inv.openNames_nodup with ⟨outcome, ends, ends'⟩ | ⟨m', w', goes, goes', tells'⟩
    · rw [ends, ends']
    · rw [goes, goes']
      exact ih tells' (inv.turn goes')

end Structure

open Structure

/-- The loop with marks comes to what the check comes to, in no more turns than there are nodes and transitions, and
    the marks are right at every turn. -/
theorem Graph.checkStructure_marked {g : Graph} {start : Node} (first : g.start? = some start) {r : Registry}
    (passes : checkNode r start = .ok ()) :
    (∀ k, (g.nodes.map fun n => n.transitions.length + 1).sum < k →
      loop (markedTurn g r) k (Marked.enter {} start) = some (g.checkStructure r)) ∧
    ∀ m, Relation.ReflTransGen (fun before after => markedTurn g r before = .inr after) (Marked.enter {} start) m →
      m.Settled g := by
  have begins : Tells {} ⟨[], [], {}⟩ := ⟨rfl, rfl, fun _ => ⟨nofun, nofun⟩, fun _ => ⟨nofun, nofun⟩⟩
  have tells : Tells (Marked.enter {} start) (Walk.enter ⟨[], [], {}⟩ start) := begins.enter rfl
  have inv := invariant_start first passes
  refine ⟨fun k enough => ?_, fun m turns => ?_⟩
  · rw [tells.loop inv k]
    exact (checkStructure_depthFirst first r).2 passes k enough
  · obtain ⟨w, tells, inv⟩ := tells.turns inv turns
    exact tells.settled inv

end WorkflowCompiler
