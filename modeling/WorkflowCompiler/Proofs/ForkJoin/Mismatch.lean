import WorkflowCompiler.Proofs.ForkJoin.Completeness

/-!
What a mismatch says. When the check reports that a join is not the one which a fork
expects, the join closes that fork, and the expected join closes some fork as well; but
that fork can be another one, since leaving a fork that no join has closed forgets the
join of an outer fork. Where forks within forks, and joins that leave a fork open, go on
to an end or to another fork or join (`Graph.Proceeds`), the remembered joins always
belong to the outermost open forks, and the expected join closes the fork that is named
(`Graph.checkForkJoin_mismatch`).
-/
namespace WorkflowCompiler

/-- The walk over all paths goes on from a node to another one. -/
def Graph.Follows (g : Graph) (m n : Node) : Prop :=
  ∃ t ok, (some t, ok) ∈ ForkJoin.exits m ∧ g.find? t = some n

/-- A fork within a fork, and a join that leaves a fork open, go on to an end or to another fork or join. -/
def Graph.Proceeds (g : Graph) : Prop :=
  ∀ n p, g.Trail g.Leads (n :: p) →
    n.kind = .fork ∧ openForks p ≠ [] ∨ n.kind = .join ∧ openForks (n :: p) ≠ [] →
    ∃ k, Relation.TransGen g.Follows n k ∧ (k.kind = .finish ∨ k.kind = .fork ∨ k.kind = .join)

namespace ForkJoin

/-! ### Joins of the outermost forks -/

/-- The joins belong to the outermost forks, one to each. -/
def Outermost (R : String → String → Prop) (joins forks : List String) : Prop :=
  ∃ outer, outer <:+ forks ∧ List.Forall₂ R joins outer

section
variable {R : String → String → Prop} {joins forks : List String} {j f : String}

theorem Outermost.few (outermost : Outermost R joins forks) : joins.length ≤ forks.length := by
  obtain ⟨outer, part, related⟩ := outermost
  exact related.length_eq ▸ part.length_le

/-- Joins for all forks are in line with them. -/
theorem Outermost.whole (outermost : Outermost R joins forks) (enough : forks.length ≤ joins.length) :
    List.Forall₂ R joins forks := by
  obtain ⟨outer, part, related⟩ := outermost
  rw [related.length_eq] at enough
  exact part.eq_of_length_le enough ▸ related

theorem Outermost.cons (outermost : Outermost R joins forks) : Outermost R joins (f :: forks) := by
  obtain ⟨outer, part, related⟩ := outermost
  exact ⟨outer, part.trans (List.suffix_cons f forks), related⟩

theorem Outermost.cons_cons (outermost : Outermost R joins forks) (full : joins.length = forks.length)
    (own : R j f) : Outermost R (j :: joins) (f :: forks) :=
  ⟨f :: forks, List.suffix_refl _, .cons own (outermost.whole full.ge)⟩

/-- A fork that has no join yet is not among the outermost ones. -/
theorem Outermost.waiting (outermost : Outermost R joins (f :: forks)) (waits : joins.length ≤ forks.length) :
    Outermost R joins forks := by
  obtain ⟨outer, part, related⟩ := outermost
  rcases List.suffix_cons_iff.mp part with rfl | part
  · have length := related.length_eq
    rw [List.length_cons] at length
    omega
  · exact ⟨outer, part, related⟩

theorem Outermost.tail (outermost : Outermost R joins (f :: forks)) : Outermost R joins.tail forks := by
  obtain ⟨outer, part, related⟩ := outermost
  cases related with
  | nil => exact ⟨[], List.nil_suffix, .nil⟩
  | @cons _ h _ others _ related =>
    refine ⟨others, ?_, related⟩
    rcases List.suffix_cons_iff.mp part with same | part
    · rw [(List.cons.inj same).2]
    · exact (List.suffix_cons h others).trans part

end

variable {g : Graph} {p : List Node} {s inner last final : State} {v : Visit} {n : Node} {visits rest : List Visit}
  {undo : Undo} {entries below : List Entry}

theorem outermost_enter (entered : enter g s v n = .ok (visits, undo, inner))
    (outermost : Outermost (Owns g) s.joins s.forks) : Outermost (Owns g) inner.joins inner.forks := by
  obtain ⟨marks, _, shifts, _⟩ := enter_cases entered
  cases shifts with
  | plain _ _ _ => exact outermost
  | fork _ => exact outermost.cons
  | join _ opened expected =>
    dsimp only at opened
    rw [opened] at outermost
    rcases expectJoin_cases expected with top | ⟨same, waits⟩
    · dsimp only at top
      rw [top] at outermost
      exact outermost.tail
    · dsimp only at same waits
      rw [opened, List.length_cons] at waits
      rw [same] at outermost waits
      exact outermost.waiting (Nat.le_of_lt_succ waits)

/-! ### What is walked below a node -/

/-- Below a node the walk enters all that it goes on to from there. -/
theorem Walks.comes (position : At s p) (along : v.Continues g p) (found : resolve g s v = .ok n)
    (entered : enter g s v n = .ok (visits, undo, inner)) (inside : Walks g (n :: p) inner visits below last)
    {k : Node} (onward : Relation.TransGen g.Follows n k) : ∃ e ∈ below, e.node = k := by
  have proper := inside.proper (at_enter position entered) (continues_of_enter along found entered)
  obtain ⟨_, _, _, rfl⟩ := enter_cases entered
  induction onward with
  | single follows =>
    obtain ⟨t, ok, leaves, lands⟩ := follows
    obtain ⟨e, member, node, _⟩ := inside.enters_target proper (List.mem_map_of_mem leaves) lands
    exact ⟨e, member, node⟩
  | tail _ follows ih =>
    obtain ⟨t, ok, leaves, lands⟩ := follows
    obtain ⟨e, member, rfl⟩ := ih
    obtain ⟨e', member', _, visit⟩ := inside.next member leaves
    exact ⟨e', member', (proper e' member').lands (by rw [visit]) lands⟩

/-- A walk that enters no fork and no join leaves the joins and the open forks as they are. -/
theorem Walks.still (walks : Walks g p s visits entries final)
    (plain : ∀ e ∈ entries, ¬ (e.node.kind = .fork ∨ e.node.kind = .join)) :
    final.joins = s.joins ∧ ∀ e ∈ entries, e.state.forks = s.forks := by
  induction walks with
  | done => exact ⟨rfl, fun _ member => (nomatch member)⟩
  | @visit p s inner last final v visits rest n undo below after found entered inside onward ihInside ihOnward =>
    obtain ⟨notFork, notJoin⟩ := not_or.mp (plain _ (List.mem_cons_self ..))
    have inBelow := ihInside fun e member => plain e (by simp [member])
    have inAfter := ihOnward fun e member => plain e (by simp [member])
    have forks := forks_leave entered inside.forks
    obtain ⟨_, _, shifts, _⟩ := enter_cases entered
    cases shifts with
    | fork isFork => exact absurd isFork notFork
    | join isJoin _ _ => exact absurd isJoin notJoin
    | plain _ _ _ =>
      refine ⟨inAfter.1.trans inBelow.1, fun e member => ?_⟩
      rcases mem_entries member with rfl | member | member
      · rfl
      · exact inBelow.2 e member
      · exact (inAfter.2 e member).trans forks

/-- Inside a node that proceeds, some fork or join is entered. -/
theorem Walks.bracket_of_proceeds (position : At s p) (along : v.Continues g p) (found : resolve g s v = .ok n)
    (entered : enter g s v n = .ok (visits, undo, inner)) (inside : Walks g (n :: p) inner visits below last)
    (some : inner.forks ≠ []) {k : Node} (onward : Relation.TransGen g.Follows n k)
    (kind : k.kind = .finish ∨ k.kind = .fork ∨ k.kind = .join) :
    ∃ e ∈ below, e.node.kind = .fork ∨ e.node.kind = .join := by
  obtain ⟨e, member, rfl⟩ := inside.comes position along found entered onward
  rcases kind with ends | bracket
  · -- Since an end is entered with no fork open, the open forks have changed on the way to it.
    by_contra none
    simp only [not_exists, not_and] at none
    exact some ((inside.still none).2 e member ▸ inside.forks_of_end member ends)
  · exact ⟨e, member, bracket⟩

/-! ### The joins stay in line -/

/-- The joins belong to the outermost open forks, and to all of them once a fork or a join was left. -/
structure Lined (g : Graph) (entries : List Entry) (final : State) : Prop where
  outermost : Outermost (Owns g) final.joins final.forks
  full : (∃ e ∈ entries, e.node.kind = .fork ∨ e.node.kind = .join) → final.joins.length = final.forks.length

/-- Inside a fork within a fork, and inside a join that leaves a fork open, all open forks get their joins. -/
theorem Lined.full_of_proceeds (proceeds : g.Proceeds) (position : At s p) (along : v.Continues g p)
    (found : resolve g s v = .ok n) (entered : enter g s v n = .ok (visits, undo, inner))
    (inside : Walks g (n :: p) inner visits below last) (lined : Lined g below last)
    (nested : n.kind = .fork ∧ s.forks ≠ [] ∨ n.kind = .join ∧ inner.forks ≠ []) :
    last.joins.length = last.forks.length := by
  have trail := along.leads n (target_of_resolve found)
  have opened := (at_enter position entered).forks
  rw [position.forks, opened] at nested
  simp only [ne_eq, List.map_eq_nil_iff] at nested
  have some : inner.forks ≠ [] := by
    rw [opened]
    rcases nested with ⟨isFork, _⟩ | ⟨_, some⟩
    · simp [openForks_fork isFork]
    · simpa using some
  obtain ⟨k, further, kind⟩ := proceeds n p trail nested
  exact lined.full (inside.bracket_of_proceeds position along found entered some further kind)

/-- Leaving a node keeps the joins in line, if the open forks all had their joins inside. -/
theorem Lined.leave (position : At s p) (trail : g.Trail g.Leads (n :: p))
    (entered : enter g s v n = .ok (visits, undo, inner)) (inside : Walks g (n :: p) inner visits below last)
    (full : n.kind = .fork ∧ s.forks ≠ [] ∨ n.kind = .join ∧ inner.forks ≠ [] → last.joins.length = last.forks.length)
    (lined : Lined g below last) : Lined g (⟨n, p, s, v⟩ :: below) (last.leave undo) := by
  have forks := inside.forks
  have outermost := lined.outermost
  have few := outermost.few
  obtain ⟨_, _, shifts, _⟩ := enter_cases entered
  cases shifts with
  | plain notFork notJoin _ =>
    refine ⟨outermost, fun ⟨e, member, bracket⟩ => ?_⟩
    rcases List.mem_cons.mp member with rfl | member
    · exact absurd bracket (not_or.mpr ⟨notFork, notJoin⟩)
    · exact lined.full ⟨e, member, bracket⟩
  | fork isFork =>
    dsimp only at forks
    rw [forks] at outermost few
    have back : (last.leave .closeFork).forks = s.forks := by rw [State.leave, forks, List.tail_cons]
    refine ⟨by rw [back]; exact outermost.tail, fun _ => ?_⟩
    rw [back, State.leave, List.length_tail]
    rw [List.length_cons] at few
    by_cases outside : s.forks = []
    · rw [outside, List.length_nil] at few ⊢
      omega
    · have all := full (.inl ⟨isFork, outside⟩)
      rw [forks, List.length_cons] at all
      omega
  | @join isJoin f outer opened _ =>
    dsimp only at forks full
    have all : last.joins.length = last.forks.length := by
      by_cases outside : outer = []
      · rw [forks, outside] at few ⊢
        exact Nat.le_zero.mp few
      · exact full (.inr ⟨isJoin, outside⟩)
    exact ⟨outermost.cons_cons all (owns_of_trail position trail isJoin opened), fun _ => congrArg (· + 1) all⟩

theorem Walks.lined (proceeds : g.Proceeds) (walks : Walks g p s visits entries final) (position : At s p)
    (along : ∀ v ∈ visits, v.Continues g p) (outermost : Outermost (Owns g) s.joins s.forks) :
    Lined g entries final := by
  induction walks with
  | done => exact ⟨outermost, fun ⟨_, member, _⟩ => (nomatch member)⟩
  | @visit p s inner last final v visits rest n undo below after found entered inside onward ihInside ihOnward =>
    have here := along v (List.mem_cons_self ..)
    have trail := here.leads n (target_of_resolve found)
    have arrived := at_enter position entered
    have lined := ihInside arrived (continues_of_enter here found entered) (outermost_enter entered outermost)
    have full := lined.full_of_proceeds proceeds position here found entered inside
    have left := lined.leave position trail entered inside full (v := v)
    have ends := ihOnward (at_leave position entered inside) (fun w later => along w (List.mem_cons_of_mem _ later))
      left.outermost
    refine ⟨ends.outermost, fun ⟨e, member, bracket⟩ => ?_⟩
    by_cases later : ∃ e ∈ after, e.node.kind = .fork ∨ e.node.kind = .join
    · exact ends.full later
    · simp only [not_exists, not_and] at later
      rw [(onward.still later).1, onward.forks]
      refine left.full ⟨e, ?_, bracket⟩
      rcases mem_entries member with rfl | member | member
      · exact List.mem_cons_self ..
      · exact List.mem_cons_of_mem _ member
      · exact absurd bracket (later e member)

/-! ### The walk up to a mismatch -/

/-- What is known of the joins wherever a walk has come to. -/
structure Matching (g : Graph) (p : List Node) (s : State) (visits : List Visit) : Prop extends Along g p s visits where
  owners : ∀ j ∈ s.joins, ∃ f, Owns g j f
  owned : (∀ f j k, g.Closes g.Leads f j → g.Closes g.Leads f k → j = k) →
    List.SublistForall₂ (Owns g) s.joins s.forks
  outermost : g.Proceeds → Outermost (Owns g) s.joins s.forks

theorem owners_enter (entered : enter g s v n = .ok (visits, undo, inner)) (owners : ∀ j ∈ s.joins, ∃ f, Owns g j f) :
    ∀ j ∈ inner.joins, ∃ f, Owns g j f := by
  obtain ⟨_, _, shifts, _⟩ := enter_cases entered
  cases shifts with
  | plain _ _ _ => exact owners
  | fork _ => exact owners
  | join _ _ expected =>
    intro j member
    rcases expectJoin_cases expected with top | ⟨same, _⟩
    · dsimp only at top
      exact owners j (top ▸ List.mem_cons_of_mem _ member)
    · dsimp only at same
      exact owners j (same ▸ member)

theorem owners_leave (position : At s p) (trail : g.Trail g.Leads (n :: p))
    (entered : enter g s v n = .ok (visits, undo, inner)) (owners : ∀ j ∈ last.joins, ∃ f, Owns g j f) :
    ∀ j ∈ (last.leave undo).joins, ∃ f, Owns g j f := by
  obtain ⟨_, _, shifts, _⟩ := enter_cases entered
  cases shifts with
  | plain _ _ _ => exact owners
  | fork _ => exact fun j member => owners j (List.mem_of_mem_tail member)
  | join isJoin opened _ =>
    intro j member
    rcases List.mem_cons.mp member with rfl | member
    · exact ⟨_, owns_of_trail position trail isJoin opened⟩
    · exact owners j member

theorem maintained_matching (g : Graph) : Maintained g (Matching g) where
  inside here found entered :=
    ⟨(maintained_along g).inside here.toAlong found entered, owners_enter entered here.owners,
      fun unique => owned_enter unique here.position (here.trail found) entered (here.owned unique),
      fun proceeds => outermost_enter entered (here.outermost proceeds)⟩
  onward {p s v _ n _ undo _ below last} here found entered walks after :=
    have trail := here.trail found
    have first : Walks g p s [v] (⟨n, p, s, v⟩ :: (below ++ [])) (last.leave undo) := .visit found entered walks .done
    have onlyHere : ∀ w ∈ [v], w.Continues g p :=
      List.forall_mem_singleton.mpr (here.continues v (List.mem_cons_self ..))
    ⟨(maintained_along g).onward here.toAlong found entered walks after.toAlong,
      owners_leave here.position trail entered after.owners,
      fun unique => owned_leave here.position trail entered walks (after.owned unique),
      fun proceeds => (first.lined proceeds here.position onlyHere (here.outermost proceeds)).outermost⟩

/-- A mismatch is met where all open forks have joins, and the innermost one another than the one that comes. -/
theorem joins_of_mismatch {f name : String} {outer : List String} (opened : s.forks = f :: outer)
    (other : (s.expectJoin name).head? ≠ some name) :
    ∃ x others, s.joins = x :: others ∧ s.expectJoin name = s.joins ∧ x ≠ name ∧ s.forks.length ≤ s.joins.length := by
  unfold State.expectJoin at other ⊢
  split at other
  · exact absurd rfl other
  · rename_i settled
    have enough : s.forks.length ≤ s.joins.length := by
      by_contra fewer
      exact settled ⟨by omega, other⟩
    rw [if_neg settled]
    cases joins : s.joins with
    | nil => simp [joins, opened] at enough
    | cons x others =>
      rw [joins] at other enough
      exact ⟨x, others, rfl, rfl, fun same => other (by rw [same, List.head?_cons]), enough⟩

end ForkJoin

/-- When a mismatch is reported, the join closes the fork, the expected join is another one that closes some
    fork, and some fork is closed by two joins. Where forks and joins proceed, it is the named fork that the
    expected join closes. -/
theorem Graph.checkForkJoin_mismatch {g : Graph} {report : StructureReport} {fork join : String}
    {expected : Option String} (stopped : g.checkForkJoin report = .error (.joinMismatch fork join expected)) :
    ∃ f j x, f.name = fork ∧ j.name = join ∧ expected = some x.name ∧ x ≠ j ∧ g.Closes g.Leads f j ∧
      (∃ h, g.Closes g.Leads h x) ∧ (∃ h k l, k ≠ l ∧ g.Closes g.Leads h k ∧ g.Closes g.Leads h l) ∧
      (g.Proceeds → g.Closes g.Leads f x) := by
  rcases ForkJoin.fails_of_check stopped with ⟨_, _, other⟩ | ⟨_, other⟩ | ⟨start, first, fails⟩
  · cases other
  · cases other
  · have matching : ForkJoin.Matching g [] {} [⟨some start.name, true, none⟩] :=
      ⟨ForkJoin.along_start first, fun _ member => (nomatch member), fun _ => .nil,
        fun _ => ⟨[], List.suffix_refl _, .nil⟩⟩
    obtain ⟨p, s, v, rest, here, lost | ⟨n, found, refused⟩⟩ := (ForkJoin.maintained_matching g).fails fails matching
    · unfold ForkJoin.resolve at lost
      split at lost
      · cases lost
      · split at lost <;> cases lost
    · cases ForkJoin.enter_error refused with
      | mismatch isJoin opened other =>
        obtain ⟨f, j, closes, named, rfl⟩ := ForkJoin.owns_of_trail here.position (here.trail found) isJoin opened
        obtain ⟨top, others, joins, same, differs, enough⟩ := ForkJoin.joins_of_mismatch opened other
        obtain ⟨_, h, x, closesX, rfl, _⟩ := here.owners top (by rw [joins]; exact List.mem_cons_self ..)
        refine ⟨f, j, x, rfl, named, by rw [same, joins, List.head?_cons], ?_, closes, ⟨h, closesX⟩, ?_, fun proceeds => ?_⟩
        · rintro rfl
          exact differs named
        · by_contra none
          have unique : ∀ f j k, g.Closes g.Leads f j → g.Closes g.Leads f k → j = k := fun f j k left right =>
            by_contra fun apart => none ⟨f, j, k, apart, left, right⟩
          have own : ForkJoin.Owns g n.name f.name := ⟨f, j, closes, named, rfl⟩
          exact other (ForkJoin.expectJoin_owned opened (here.owned unique) fun _ owns => owns.unique unique own).1
        · have whole := (here.outermost proceeds).whole enough
          rw [joins, opened] at whole
          cases whole with
          | cons own _ =>
            obtain ⟨f', x', closes', namedX, namedF⟩ := own
            have sameX : x' = x := Graph.eq_of_name_eq closes'.reachable.2.mem closesX.reachable.2.mem namedX
            have sameF : f' = f := Graph.eq_of_name_eq closes'.reachable.1.mem closes.reachable.1.mem namedF
            exact sameX ▸ sameF ▸ closes'

/-- A branch of the inner one of two forks that skips its own join. -/
def Graph.skippedJoin : Graph where
  name := "skipped"
  nodes :=
    [⟨startName, .start ["outer"]⟩, ⟨"outer", .fork ["inner", "meet"]⟩, ⟨"inner", .fork ["close", "meet"]⟩,
      ⟨"close", .join ["meet"]⟩, ⟨"meet", .join ["done"]⟩, ⟨"done", .finish []⟩]
  distinct := by decide

theorem Graph.proceeds_skippedJoin : skippedJoin.Proceeds := by
  intro n p trail nested
  have brackets : ∀ n ∈ skippedJoin.nodes, n.kind = .fork ∨ n.kind = .join →
      n = ⟨"outer", .fork ["inner", "meet"]⟩ ∨ n = ⟨"inner", .fork ["close", "meet"]⟩ ∨ n = ⟨"close", .join ["meet"]⟩ ∨
        n = ⟨"meet", .join ["done"]⟩ := by decide
  have meets {m : Node} (leaves : (some "meet", true) ∈ ForkJoin.exits m) :
      ∃ k, Relation.TransGen skippedJoin.Follows m k ∧ (k.kind = .finish ∨ k.kind = .fork ∨ k.kind = .join) :=
    ⟨⟨"meet", .join ["done"]⟩, .single ⟨"meet", true, leaves, rfl⟩, by decide⟩
  rcases brackets n (trail.mem n (List.mem_cons_self ..)) (nested.imp And.left And.left) with rfl | rfl | rfl | rfl
  · exact meets (by decide)
  · exact meets (by decide)
  · exact meets (by decide)
  · exact ⟨⟨"done", .finish []⟩, .single ⟨"done", true, by decide, rfl⟩, by decide⟩

theorem Graph.checkForkJoin_skippedJoin :
    skippedJoin.checkForkJoin ⟨["outer", "inner"], ["close", "meet"], 6⟩ =
        .error (.joinMismatch "inner" "meet" (some "close")) ∧ skippedJoin.Proceeds ∧
      ∃ f j x, f.name = "inner" ∧ j.name = "meet" ∧ x.name = "close" ∧ skippedJoin.Closes skippedJoin.Leads f j ∧
        skippedJoin.Closes skippedJoin.Leads f x := by
  have stopped : skippedJoin.checkForkJoin ⟨["outer", "inner"], ["close", "meet"], 6⟩ =
      .error (.joinMismatch "inner" "meet" (some "close")) := by decide +kernel
  obtain ⟨f, j, x, inner, meet, close, _, closes, _, _, named⟩ := checkForkJoin_mismatch stopped
  exact ⟨stopped, proceeds_skippedJoin, f, j, x, inner, meet, (Option.some.inj close).symm, closes,
    named proceeds_skippedJoin⟩

/-- A join that only other forks lead to does not close a fork. -/
theorem Graph.not_closes_of_forks {g : Graph} {fork join : String}
    (only : ∀ x ∈ g.nodes, x.name = join → ∀ k ∈ g.nodes, g.Leads k x → k.kind = .fork ∧ k.name ≠ fork) :
    ∀ f x, f.name = fork → x.name = join → ¬ g.Closes g.Leads f x := by
  rintro f x isFork isJoin ⟨q, p, trail, _, _, inner, _⟩
  have enters := only x (trail.mem x (List.mem_cons_self ..)) isJoin
  cases q with
  | nil =>
    cases trail with
    | next before leads => exact (enters f (before.mem f (List.mem_cons_self ..)) leads).2 isFork
  | cons m q =>
    cases trail with
    | next before leads =>
      rw [openForks_fork (enters m (before.mem m (List.mem_cons_self ..)) leads).1] at inner
      cases inner

/-- A fork that no join closes, on a way to the join of the outer one of two forks. -/
def Graph.lostFork : Graph where
  name := "misnamed"
  nodes :=
    [⟨startName, .start ["outer"]⟩, ⟨"outer", .fork ["meet", "inner"]⟩, ⟨"inner", .fork ["near", "far"]⟩,
      ⟨"near", .join ["choose"]⟩, ⟨"choose", .decision "<switch/>" ["meet", "lost"]⟩, ⟨"lost", .fork ["stop"]⟩,
      ⟨"far", .join ["meet"]⟩, ⟨"meet", .join ["done"]⟩, ⟨"stop", .kill none []⟩, ⟨"done", .finish []⟩]
  distinct := by decide

/-- The join of the inner fork is expected for the outer fork, whose own join was forgotten. -/
theorem Graph.misnamed_lostFork :
    lostFork.SingleExit ∧
    lostFork.checkStructure (Registry.withBuiltins []) = .ok ⟨["outer", "inner", "lost"], ["meet", "near", "far"], 10⟩ ∧
    lostFork.checkForkJoin ⟨["outer", "inner", "lost"], ["meet", "near", "far"], 10⟩ =
      .error (.joinMismatch "outer" "meet" (some "near")) ∧
    ∀ f x, f.name = "outer" → x.name = "near" → ¬ lostFork.Closes lostFork.Leads f x :=
  ⟨by decide, checkStructure_of_turns rfl rfl (k := 40) (by decide +kernel), by decide +kernel, not_closes_of_forks (by decide)⟩

/-- Two joins of the inner one of two forks that go nowhere from there, beside a fork that no join closes. -/
def Graph.unresumedJoin : Graph where
  name := "unresumed"
  nodes :=
    [⟨startName, .start ["choose"]⟩, ⟨"choose", .decision "<switch/>" ["outer", "spare"]⟩,
      ⟨"outer", .fork ["inner", "other"]⟩, ⟨"inner", .fork ["near", "far"]⟩, ⟨"near", .join ["stop"]⟩,
      ⟨"far", .join ["stop"]⟩, ⟨"other", .join ["done"]⟩, ⟨"spare", .fork ["stop"]⟩, ⟨"stop", .kill none []⟩,
      ⟨"done", .finish []⟩]
  distinct := by decide

/-- Joins that do not go on mislead the check as well: the first join of the inner fork is taken for that of
    the outer one. -/
theorem Graph.misnamed_unresumedJoin :
    unresumedJoin.SingleExit ∧
    unresumedJoin.checkStructure (Registry.withBuiltins []) =
      .ok ⟨["outer", "inner", "spare"], ["near", "far", "other"], 10⟩ ∧
    unresumedJoin.checkForkJoin ⟨["outer", "inner", "spare"], ["near", "far", "other"], 10⟩ =
      .error (.joinMismatch "outer" "other" (some "near")) ∧
    ∀ f x, f.name = "outer" → x.name = "near" → ¬ unresumedJoin.Closes unresumedJoin.Leads f x :=
  ⟨by decide, checkStructure_of_turns rfl rfl (k := 40) (by decide +kernel), by decide +kernel, not_closes_of_forks (by decide)⟩

end WorkflowCompiler
