import WorkflowCompiler.Proofs.ForkJoin.Completeness

/-!
The order in which forks and decisions declare their targets. What a graph must
satisfy to be well-forked does not speak of this order, so it carries over to a
reordered graph (`Carries`), and where the check accepts exactly the well-forked
graphs its verdict does not depend on the order (`Graph.checkForkJoin_reordered`).
Elsewhere it does: a fork that nothing closes forgets a join or keeps it, and the
first way to a fork passes a decision or does not.
-/
namespace WorkflowCompiler

/-- A node, and the same node with the targets of a fork or a decision in another order. -/
inductive Node.Reordered : Node → Node → Prop
  | same (n : Node) : Reordered n n
  | fork {name : String} {targets others : List String} (perm : targets.Perm others) :
      Reordered ⟨name, .fork targets⟩ ⟨name, .fork others⟩
  | decision {name switch : String} {targets others : List String} (perm : targets.Perm others) :
      Reordered ⟨name, .decision switch targets⟩ ⟨name, .decision switch others⟩

/-- A graph, and the same graph with the targets of some forks and decisions in another order. -/
def Graph.Reordered (g h : Graph) : Prop := List.Forall₂ Node.Reordered g.nodes h.nodes

namespace Node.Reordered
variable {n m : Node}

theorem symm (reordered : Reordered n m) : Reordered m n := by
  cases reordered with
  | same => exact .same n
  | fork perm => exact .fork perm.symm
  | decision perm => exact .decision perm.symm

theorem name (reordered : Reordered n m) : m.name = n.name := by
  cases reordered with
  | same => rfl
  | fork _ => rfl
  | decision _ => rfl

theorem kind (reordered : Reordered n m) : m.kind = n.kind := by
  cases reordered with
  | same => rfl
  | fork _ => rfl
  | decision _ => rfl

theorem isTerminal (reordered : Reordered n m) : Structure.isTerminal m = Structure.isTerminal n := by
  unfold Structure.isTerminal
  rw [reordered.kind]

theorem transitions (reordered : Reordered n m) : n.transitions.Perm m.transitions := by
  cases reordered with
  | same => exact .refl _
  | fork perm => exact perm
  | decision perm => exact perm

theorem successTransitions (reordered : Reordered n m) : n.successTransitions.Perm m.successTransitions := by
  cases reordered with
  | same => exact .refl _
  | fork perm => exact perm
  | decision perm => exact perm

theorem action (reordered : Reordered n m) {ok error : String} {spec : ActionSpec} (body : n.body = .action ok error spec) :
    m = n := by
  cases reordered with
  | same => rfl
  | fork _ => cases body
  | decision _ => cases body

end Node.Reordered

theorem forall₂_reordered (nodes : List Node) : List.Forall₂ Node.Reordered nodes nodes :=
  List.forall₂_same.mpr fun n _ => .same n

theorem Graph.Reordered.symm {g h : Graph} (reordered : g.Reordered h) : h.Reordered g :=
  List.Forall₂.flip (reordered.imp fun _ _ => Node.Reordered.symm)

/-! ### From a graph to a reordered one -/

/-- A choice of the reordered node for each node, along which one graph is another. -/
structure Carries (g h : Graph) (c : Node → Node) : Prop where
  node : ∀ n, Node.Reordered n (c n)
  member : ∀ n ∈ g.nodes, c n ∈ h.nodes
  start : ∀ s, g.start? = some s → h.start? = some (c s)

theorem exists_of_mem_forall₂ {α : Type} {R : α → α → Prop} {l others : List α} (each : List.Forall₂ R l others)
    {a : α} (member : a ∈ l) : ∃ b ∈ others, R a b := by
  induction each with
  | nil => cases member
  | cons first _ ih =>
    rcases List.mem_cons.mp member with rfl | later
    · exact ⟨_, List.mem_cons_self .., first⟩
    · obtain ⟨b, listed, related⟩ := ih later
      exact ⟨b, List.mem_cons_of_mem _ listed, related⟩

theorem find?_of_forall₂ {α : Type} {R : α → α → Prop} {f : α → Bool} (respects : ∀ a b, R a b → f b = f a)
    {l others : List α} (each : List.Forall₂ R l others) {a : α} (found : l.find? f = some a) :
    ∃ b, others.find? f = some b ∧ R a b := by
  induction each with
  | nil => cases found
  | @cons x y l others first _ ih =>
    rw [List.find?_cons] at found ⊢
    rw [respects x y first]
    split at found
    · cases found
      exact ⟨y, rfl, first⟩
    · exact ih found

theorem Graph.Reordered.exists_carries {g h : Graph} (reordered : g.Reordered h) : ∃ c, Carries g h c := by
  have choice (n : Node) : ∃ m, Node.Reordered n m ∧ (n ∈ g.nodes → m ∈ h.nodes) := by
    by_cases known : n ∈ g.nodes
    · obtain ⟨m, listed, related⟩ := exists_of_mem_forall₂ reordered known
      exact ⟨m, related, fun _ => listed⟩
    · exact ⟨n, .same n, fun member => absurd member known⟩
  choose c node member using choice
  refine ⟨c, node, member, fun s first => ?_⟩
  have kinds (n m : Node) (related : Node.Reordered n m) : (m.kind == .start) = (n.kind == .start) := by
    rw [related.kind]
  obtain ⟨m, found, related⟩ := find?_of_forall₂ kinds (List.forall₂_reverse_iff.mpr reordered) first
  have listed : m ∈ h.nodes := Graph.mem_of_start? found
  have same : m = c s := Graph.eq_of_name_eq listed (member s (Graph.mem_of_start? first))
    (related.name.trans (node s).name.symm)
  rw [← same]
  exact found

namespace Carries
variable {g h : Graph} {c d : Node → Node} {r : Registry}

theorem found (carries : Carries g h c) {t : String} {n : Node} (found : g.find? t = some n) :
    h.find? t = some (c n) := by
  have named : (c n).name = t := (carries.node n).name.trans (Graph.name_of_find? found)
  rw [← named]
  exact Graph.find?_of_mem (carries.member n (Graph.mem_of_find? found))

theorem injective (carries : Carries g h c) {m n : Node} (left : m ∈ g.nodes) (right : n ∈ g.nodes)
    (same : c m = c n) : m = n := by
  refine Graph.eq_of_name_eq left right ?_
  rw [← (carries.node m).name, same, (carries.node n).name]

theorem leads (carries : Carries g h c) {m n : Node} (leads : g.Leads m n) : h.Leads (c m) (c n) := by
  obtain ⟨going, t, transition, found⟩ := leads
  refine ⟨?_, t, (carries.node m).transitions.mem_iff.mp transition, carries.found found⟩
  rw [(carries.node m).isTerminal, going]

theorem succeeds (carries : Carries g h c) {m n : Node} (succeeds : g.Succeeds m n) : h.Succeeds (c m) (c n) := by
  obtain ⟨going, t, transition, found⟩ := succeeds
  refine ⟨?_, t, (carries.node m).successTransitions.mem_iff.mp transition, carries.found found⟩
  rw [(carries.node m).isTerminal, going]

theorem trail_map (carries : Carries g h c) {step step' : Node → Node → Prop}
    (steps : ∀ m n, step m n → step' (c m) (c n)) {p : List Node} (trail : g.Trail step p) :
    h.Trail step' (p.map c) := by
  induction trail with
  | start first => exact .start (carries.start _ first)
  | next _ onward ih => exact .next ih (steps _ _ onward)

theorem trail (carries : Carries g h c) {p : List Node} (trail : g.Trail g.Leads p) : h.Trail h.Leads (p.map c) :=
  carries.trail_map (fun _ _ => carries.leads) trail

theorem success_trail (carries : Carries g h c) {p : List Node} (trail : g.Trail g.Succeeds p) :
    h.Trail h.Succeeds (p.map c) :=
  carries.trail_map (fun _ _ => carries.succeeds) trail

theorem reachable (carries : Carries g h c) {n : Node} (reachable : g.Reachable n) : h.Reachable (c n) := by
  obtain ⟨p, trail⟩ := Graph.reachable_iff_trail.mp reachable
  exact Graph.reachable_iff_trail.mpr ⟨p.map c, carries.trail trail⟩

theorem openForks_map (carries : Carries g h c) (p : List Node) : openForks (p.map c) = (openForks p).map c := by
  induction p with
  | nil => rfl
  | cons n p ih =>
    simp only [List.map_cons, openForks, (carries.node n).kind, ih]
    split
    · rfl
    · split
      · rw [List.map_tail]
      · rfl

theorem strayJoins_map (carries : Carries g h c) (p : List Node) : strayJoins (p.map c) = strayJoins p := by
  induction p with
  | nil => rfl
  | cons n p ih => simp only [List.map_cons, strayJoins, (carries.node n).kind, carries.openForks_map, List.map_eq_nil_iff, ih]

theorem firstDecision_map (carries : Carries g h c) (p : List Node) :
    ForkJoin.firstDecision (p.map c) = ForkJoin.firstDecision p := by
  induction p with
  | nil => rfl
  | cons n p ih =>
    simp only [List.map_cons, ForkJoin.firstDecision, ForkJoin.decisionAfter, (carries.node n).kind,
      (carries.node n).name, ih]

theorem closes (carries : Carries g h c) {f j : Node} (closes : g.Closes g.Leads f j) :
    h.Closes h.Leads (c f) (c j) := by
  obtain ⟨q, p, trail, isFork, isJoin, inner, closed⟩ := closes
  refine ⟨q.map c, p.map c, by simpa using carries.trail trail, ?_, ?_, ?_, ?_⟩
  · rw [(carries.node f).kind, isFork]
  · rw [(carries.node j).kind, isJoin]
  · rw [carries.openForks_map, inner, List.map_nil]
  · rw [carries.strayJoins_map, closed]

theorem branch (carries : Carries g h c) {f t x : Node} (branch : g.Branch f t x) : h.Branch (c f) (c t) (c x) := by
  obtain ⟨q, p, trail, last, first, inside⟩ := branch
  refine ⟨q.map c, p.map c, by simpa using carries.success_trail trail, ?_, ?_, ?_⟩
  · rw [List.head?_map, last, Option.map_some]
  · rw [List.getLast?_map, first, Option.map_some]
  · rw [carries.strayJoins_map, inside]

theorem runsTwice (carries : Carries g h c) {f x : Node} (twice : g.RunsTwice f x) : h.RunsTwice (c f) (c x) := by
  obtain ⟨isFork, notJoin, notKill, notEnd, t, u, different, left, right⟩ := twice
  have listed {t x : Node} (branch : g.Branch f t x) : t ∈ g.nodes := by
    obtain ⟨q, p, trail, _, first, _⟩ := branch
    exact trail.leads.mem t (List.mem_append_left _ (List.mem_of_getLast? first))
  refine ⟨?_, ?_, ?_, ?_, c t, c u, ?_, carries.branch left, carries.branch right⟩
  · rw [(carries.node f).kind, isFork]
  · rwa [(carries.node x).kind]
  · rwa [(carries.node x).kind]
  · rwa [(carries.node x).kind]
  · exact fun same => different (carries.injective (listed left) (listed right) same)

/-- There and back, a trail is the same. -/
theorem back (carries : Carries g h c) (returns : Carries h g d) {p : List Node} (trail : g.Trail g.Leads p) :
    (p.map c).map d = p := by
  have same (n : Node) (listed : n ∈ p) : d (c n) = n := by
    have known := trail.mem n listed
    refine Graph.eq_of_name_eq (returns.member _ (carries.member n known)) known ?_
    rw [(returns.node _).name, (carries.node n).name]
  rw [List.map_map]
  calc p.map (d ∘ c) = p.map id := List.map_congr_left same
    _ = p := List.map_id p

/-! ### What carries over -/

theorem singleExit (carries : Carries h g c) (single : g.SingleExit) : h.SingleExit := by
  intro n member kind
  rw [(carries.node n).transitions.length_eq]
  exact single (c n) (carries.member n member) (by rwa [(carries.node n).kind])

theorem settled (carries : Carries h g c) (settled : g.Settled) : h.Settled := by
  intro f x p q twice left right undecided
  rw [← carries.firstDecision_map] at undecided ⊢
  exact settled (c f) (c x) _ _ (carries.runsTwice twice) (carries.success_trail left) (carries.success_trail right)
    undecided

theorem closable (carries : Carries h g c) (returns : Carries g h d) (closable : g.Closable) : h.Closable := by
  intro n p trail inside asked
  obtain ⟨q, further, stray⟩ := closable (c n) (p.map c) (carries.trail trail) (by
    have opened := carries.openForks_map (n :: p)
    rw [List.map_cons] at opened
    rw [opened]
    simpa using inside) (by
    rw [(carries.node n).kind, (carries.node n).isTerminal]
    exact asked.imp_right (Or.imp_right (And.imp_left carries.success_trail)))
  refine ⟨q.map d, ?_, by rwa [returns.strayJoins_map]⟩
  have back := returns.trail further
  rwa [List.map_append, ← List.map_cons, carries.back returns trail] at back

theorem wellFormed (carries : Carries h g c) (returns : Carries g h d) (wellFormed : g.WellFormed r) :
    h.WellFormed r := by
  refine ⟨?_, ?_, ?_, ?_⟩
  · intro n reachable going t transition
    obtain ⟨m, found⟩ := wellFormed.resolved (c n) (carries.reachable reachable) (by
      rw [(carries.node n).isTerminal, going]) t ((carries.node n).transitions.mem_iff.mp transition)
    exact ⟨d m, returns.found found⟩
  · intro n reachable cycle
    refine wellFormed.acyclic (c n) (carries.reachable reachable) ?_
    exact Relation.TransGen.lift c (fun _ _ => carries.leads) n n cycle
  · intro n reachable notStart
    rw [← (carries.node n).name]
    exact wellFormed.named (c n) (carries.reachable reachable) (by rwa [(carries.node n).kind])
  · intro n ok error spec reachable body
    have same := (carries.node n).action body
    exact wellFormed.typed n ok error spec (same ▸ carries.reachable reachable) body

theorem wellForked (carries : Carries h g c) (returns : Carries g h d) (well : g.WellForked) : h.WellForked where
  nested n p trail := by
    rw [← carries.strayJoins_map]
    exact well.nested (c n) (p.map c) (carries.trail trail)
  outside n p trail ends := by
    have outside := well.outside (c n) (p.map c) (carries.trail trail) (by rw [(carries.node n).kind, ends])
    rwa [← List.map_cons, carries.openForks_map, List.map_eq_nil_iff] at outside
  paired := by
    refine ⟨fun f j k left right => ?_, fun f k j left right => ?_⟩
    · exact carries.injective left.reachable.2.mem right.reachable.2.mem
        (well.paired.join_unique _ _ _ (carries.closes left) (carries.closes right))
    · exact carries.injective left.reachable.1.mem right.reachable.1.mem
        (well.paired.fork_unique _ _ _ (carries.closes left) (carries.closes right))
  targets f reachable isFork t again := by
    rw [(carries.node f).transitions.count_eq] at again
    obtain ⟨n, found, kind⟩ := well.targets (c f) (carries.reachable reachable) (by
      rw [(carries.node f).kind, isFork]) t again
    exact ⟨d n, returns.found found, by rwa [(returns.node n).kind]⟩
  decided f x p twice trail := by
    rw [← carries.firstDecision_map]
    exact well.decided (c f) (c x) _ (carries.runsTwice twice) (carries.success_trail trail)

end Carries

/-- Where no decision leads to a fork, all ways to forks agree. -/
theorem Graph.settled_of_undecided {g : Graph} {S : List Node}
    (back : ∀ n ∈ S, ∀ m ∈ g.nodes, g.Succeeds m n → m ∈ S ∧ m.kind ≠ .decision)
    (forks : ∀ f ∈ g.nodes, f.kind = .fork → f ∈ S) : g.Settled := by
  have undecided {n : Node} {p : List Node} (trail : g.Trail g.Succeeds (n :: p)) (member : n ∈ S) :
      ForkJoin.firstDecision p = none := by
    induction p generalizing n with
    | nil => rfl
    | cons m p ih =>
      cases trail with
      | next before onward =>
        obtain ⟨earlier, notDecision⟩ := back n member m (before.leads.mem m (List.mem_cons_self ..)) onward
        rw [ForkJoin.firstDecision, ForkJoin.decisionAfter, if_neg notDecision]
        exact ih before earlier
  intro f x p q twice _ right _
  exact undecided right (forks f (right.leads.mem f (List.mem_cons_self ..)) twice.1)

/-- Where all open forks can be closed, and all ways to a fork agree on decisions, the order in which forks and
    decisions declare their targets does not decide whether the check passes. -/
theorem Graph.checkForkJoin_reordered {g h : Graph} {r : Registry} {report : StructureReport}
    (reordered : g.Reordered h) (single : g.SingleExit) (checked : g.checkStructure r = .ok report)
    (closable : g.Closable) (settled : g.Settled) :
    ∃ report', h.checkStructure r = .ok report' ∧
      (g.checkForkJoin report = .ok () ↔ h.checkForkJoin report' = .ok ()) := by
  obtain ⟨c, there⟩ := reordered.exists_carries
  obtain ⟨d, back⟩ := reordered.symm.exists_carries
  obtain ⟨s, first, explored⟩ := Graph.explored_of_checkStructure checked
  have wellFormed := back.wellFormed there (explored.wellFormed first)
  have correct := Graph.checkStructure_correct (r := r) (there.start s first)
  cases checked' : h.checkStructure r with
  | error fault =>
    rw [checked'] at correct
    exact absurd wellFormed correct
  | ok report' =>
    refine ⟨report', rfl, ?_⟩
    rw [checkForkJoin_iff single checked closable settled, checkForkJoin_iff (back.singleExit single) checked'
      (back.closable there closable) (back.settled settled)]
    exact ⟨back.wellForked there, there.wellForked back⟩

/-- The nested forks and the decision, each with its targets the other way round. -/
def Graph.turnedForks : Graph where
  name := "nested"
  nodes :=
    [⟨startName, .start ["split"]⟩, ⟨"split", .fork ["inner", "left"]⟩,
      ⟨"left", .action "meet" "stop" { conf := "<shell/>" }⟩, ⟨"inner", .fork ["far", "near"]⟩,
      ⟨"near", .action "close" "stop" { conf := "<shell/>" }⟩, ⟨"far", .decision "<switch/>" ["stop", "close"]⟩,
      ⟨"close", .join ["meet"]⟩, ⟨"meet", .join ["done"]⟩, ⟨"stop", .kill none []⟩, ⟨"done", .finish []⟩]
  distinct := by decide

theorem Graph.reordered_turnedForks : nestedForks.Reordered turnedForks :=
  .cons (.same _) (.cons (.fork (.swap ..)) (.cons (.same _) (.cons (.fork (.swap ..)) (.cons (.same _)
    (.cons (.decision (.swap ..)) (forall₂_reordered _))))))

theorem Graph.closable_nestedForks : nestedForks.Closable :=
  closable_of_forward singleExit_nestedForks checkStructure_nestedForks checkForkJoin_nestedForks (by decide)

theorem Graph.settled_nestedForks : nestedForks.Settled :=
  settled_of_undecided (S := [⟨startName, .start ["split"]⟩, ⟨"split", .fork ["left", "inner"]⟩,
    ⟨"inner", .fork ["near", "far"]⟩]) (by decide) (by decide)

theorem Graph.checkForkJoin_reordered_nestedForks :
    nestedForks.Closable ∧ nestedForks.Settled ∧ ∃ report,
      turnedForks.checkStructure (Registry.withBuiltins []) = .ok report ∧ turnedForks.checkForkJoin report = .ok () := by
  obtain ⟨report, checked, same⟩ := checkForkJoin_reordered reordered_turnedForks singleExit_nestedForks
    checkStructure_nestedForks closable_nestedForks settled_nestedForks
  exact ⟨closable_nestedForks, settled_nestedForks, report, checked, same.mp checkForkJoin_nestedForks⟩

/-- The fork that no join closes, before both branches of the other one. -/
def Graph.keptJoin : Graph where
  name := "lost"
  nodes :=
    [⟨startName, .start ["outer"]⟩, ⟨"outer", .fork ["inner", "near", "far"]⟩, ⟨"inner", .fork ["stop"]⟩,
      ⟨"near", .join ["done"]⟩, ⟨"far", .join ["done"]⟩, ⟨"stop", .kill none []⟩, ⟨"done", .finish []⟩]
  distinct := by decide

/-- Whether the fork comes between the joins or before them makes the difference. -/
theorem Graph.reordered_lostJoin :
    lostJoin.Reordered keptJoin ∧ lostJoin.SingleExit ∧
    lostJoin.checkStructure (Registry.withBuiltins []) = .ok ⟨["outer", "inner"], ["near", "far"], 7⟩ ∧
    keptJoin.checkStructure (Registry.withBuiltins []) = .ok ⟨["outer", "inner"], ["near", "far"], 7⟩ ∧
    lostJoin.checkForkJoin ⟨["outer", "inner"], ["near", "far"], 7⟩ = .ok () ∧
    keptJoin.checkForkJoin ⟨["outer", "inner"], ["near", "far"], 7⟩ =
      .error (.joinMismatch "outer" "far" (some "near")) := by
  refine ⟨?_, by decide, checkStructure_of_turns rfl rfl (k := 40) (by decide +kernel),
    checkStructure_of_turns rfl rfl (k := 40) (by decide +kernel), by decide +kernel, by decide +kernel⟩
  exact .cons (.same _) (.cons (.fork (.swap ..)) (forall₂_reordered _))

/-- A fork whose two branches meet in a join, one of them by a decision, and a second fork after that join,
    whose branches meet in a node. -/
def Graph.latelyDecided (targets : List String) : Graph where
  name := "late"
  nodes :=
    [⟨startName, .start ["first"]⟩, ⟨"first", .fork targets⟩, ⟨"choose", .decision "<switch/>" ["meet"]⟩,
      ⟨"meet", .join ["second"]⟩, ⟨"second", .fork ["left", "right"]⟩, ⟨"left", .decision "<switch/>" ["both"]⟩,
      ⟨"right", .decision "<switch/>" ["both"]⟩, ⟨"both", .decision "<switch/>" ["close"]⟩, ⟨"close", .join ["done"]⟩,
      ⟨"done", .finish []⟩]
  distinct := by simp [startName]

/-- Where some ways to a fork pass a decision and others do not, the first one makes the difference. -/
theorem Graph.reordered_latelyDecided :
    (latelyDecided ["choose", "meet"]).Reordered (latelyDecided ["meet", "choose"]) ∧
    (latelyDecided ["choose", "meet"]).SingleExit ∧ (latelyDecided ["choose", "meet"]).Closable ∧
    (latelyDecided ["choose", "meet"]).checkStructure (Registry.withBuiltins []) =
      .ok ⟨["first", "second"], ["meet", "close"], 10⟩ ∧
    (latelyDecided ["meet", "choose"]).checkStructure (Registry.withBuiltins []) =
      .ok ⟨["first", "second"], ["meet", "close"], 10⟩ ∧
    (latelyDecided ["choose", "meet"]).checkForkJoin ⟨["first", "second"], ["meet", "close"], 10⟩ = .ok () ∧
    (latelyDecided ["meet", "choose"]).checkForkJoin ⟨["first", "second"], ["meet", "close"], 10⟩ =
      .error (.revisit "both") := by
  have single : (latelyDecided ["choose", "meet"]).SingleExit := by decide
  have checked : (latelyDecided ["choose", "meet"]).checkStructure (Registry.withBuiltins []) =
      .ok ⟨["first", "second"], ["meet", "close"], 10⟩ :=
    checkStructure_of_turns rfl rfl (k := 40) (by decide +kernel)
  have passed : (latelyDecided ["choose", "meet"]).checkForkJoin ⟨["first", "second"], ["meet", "close"], 10⟩ = .ok () := by
    decide +kernel
  refine ⟨?_, single, ?_, checked, checkStructure_of_turns rfl rfl (k := 40) (by decide +kernel), passed, by decide +kernel⟩
  · exact .cons (.same _) (.cons (.fork (.swap ..)) (forall₂_reordered _))
  · exact closable_of_forward single checked passed (by decide)

/-- A fork whose branches meet in a join, and a node that one of them leads to as well as what comes after the join. -/
def Graph.deadBranch (targets : List String) : Graph where
  name := "dead"
  nodes :=
    [⟨startName, .start ["split"]⟩, ⟨"split", .fork targets⟩, ⟨"choose", .decision "<switch/>" ["meet", "fail"]⟩,
      ⟨"meet", .join ["last"]⟩, ⟨"last", .decision "<switch/>" ["fail", "done"]⟩, ⟨"fail", .decision "<switch/>" ["stop"]⟩,
      ⟨"stop", .kill none []⟩, ⟨"done", .finish []⟩]
  distinct := by simp [startName]

/-- Where no way closes the fork from a node inside it, the branch that is walked first makes the difference. -/
theorem Graph.reordered_deadBranch :
    (deadBranch ["choose", "meet"]).Reordered (deadBranch ["meet", "choose"]) ∧
    (deadBranch ["choose", "meet"]).SingleExit ∧ (deadBranch ["choose", "meet"]).Settled ∧
    (deadBranch ["choose", "meet"]).checkStructure (Registry.withBuiltins []) = .ok ⟨["split"], ["meet"], 8⟩ ∧
    (deadBranch ["meet", "choose"]).checkStructure (Registry.withBuiltins []) = .ok ⟨["split"], ["meet"], 8⟩ ∧
    (deadBranch ["choose", "meet"]).checkForkJoin ⟨["split"], ["meet"], 8⟩ = .ok () ∧
    (deadBranch ["meet", "choose"]).checkForkJoin ⟨["split"], ["meet"], 8⟩ = .error (.revisit "fail") := by
  refine ⟨?_, by decide, ?_, checkStructure_of_turns rfl rfl (k := 40) (by decide +kernel),
    checkStructure_of_turns rfl rfl (k := 40) (by decide +kernel), by decide +kernel, by decide +kernel⟩
  · exact .cons (.same _) (.cons (.fork (.swap ..)) (forall₂_reordered _))
  · exact settled_of_undecided (S := [⟨startName, .start ["split"]⟩, ⟨"split", .fork ["choose", "meet"]⟩])
      (by decide) (by decide)

end WorkflowCompiler
