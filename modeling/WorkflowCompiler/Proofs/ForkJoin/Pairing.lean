import WorkflowCompiler.Proofs.DepthFirst
import WorkflowCompiler.Proofs.ForkJoin.Balance

/-!
Pairs of forks and joins. A join closes a fork where some way leads from the fork
to the join and closes in between whatever it opens in between. The check compares
each join with the one it remembers for the fork, but leaving a fork that no join
has closed forgets the join of an outer fork. So an accepted graph can close one
fork by two joins. Where every join goes on to close what it leaves open, this is
the only way to go wrong: forks and joins are then in pairs exactly if every fork
is closed by some join (`Graph.paired_iff_closed`). The reason is that the joins
of the state, innermost first, belong to the outermost forks, and that they belong
to all open forks as soon as any fork or join has been left (`Kept`).
-/
namespace WorkflowCompiler

/-- Each fork is closed by one join, and each join closes one fork. -/
structure Graph.Paired (g : Graph) : Prop where
  join_unique : ∀ f j k, g.Closes g.Leads f j → g.Closes g.Leads f k → j = k
  fork_unique : ∀ f h j, g.Closes g.Leads f j → g.Closes g.Leads h j → f = h

/-- A join that leaves a fork open goes on to another join that closes it. -/
def Graph.Resumes (g : Graph) : Prop :=
  ∀ j p, g.Trail g.Leads (j :: p) → j.kind = .join → openForks (j :: p) ≠ [] →
    ∃ q, g.Trail g.Leads (q ++ j :: p) ∧ strayJoins q ≠ 0

/-- Some way from a node closes all forks that are open there. -/
def Graph.Drains (g : Graph) (n : Node) (p : List Node) : Prop :=
  ∃ q, g.Trail g.Leads (q ++ n :: p) ∧ (openForks (n :: p)).length ≤ strayJoins q

/-- On no trail a join comes without a fork. -/
def Graph.Nested (g : Graph) : Prop :=
  ∀ n p, g.Trail g.Leads (n :: p) → strayJoins (n :: p) = 0

/-! ### Depths -/

/-- A join closes the fork that is open before it. -/
theorem Graph.Nested.closes {g : Graph} (nested : g.Nested) {j : Node} {p : List Node}
    (trail : g.Trail g.Leads (j :: p)) (isJoin : j.kind = .join) :
    ∃ f, g.Closes g.Leads f j := by
  have stray := nested j p trail
  cases opened : openForks p with
  | nil => rw [strayJoins_join isJoin, if_pos opened] at stray; omega
  | cons f rest =>
    rw [← List.nil_append (f :: rest)] at opened
    obtain ⟨q, before, rfl, isFork, inner, closed, _⟩ := openForks_split opened
    exact ⟨f, q, before, trail, isFork, isJoin, inner, closed⟩

/-- The join that closes a fork leaves open what was open before the fork. -/
theorem openForks_closed {f j : Node} {q p : List Node} (isFork : f.kind = .fork) (isJoin : j.kind = .join)
    (inner : openForks q = []) (closed : strayJoins q = 0) : openForks (j :: q ++ f :: p) = openForks p := by
  rw [List.cons_append, openForks_join isJoin, openForks_append, inner, closed, List.drop_zero, List.nil_append,
    openForks_fork isFork, List.tail_cons]

/-- A join that closes the innermost open fork. -/
theorem openForks_stray {k n : Node} {q p : List Node} (isJoin : k.kind = .join) (inner : openForks q = [])
    (closed : strayJoins q = 0) : openForks (k :: q ++ n :: p) = (openForks (n :: p)).tail := by
  rw [List.cons_append, openForks_join isJoin, openForks_append, inner, closed, List.drop_zero, List.nil_append]

/-- What can be closed from a join that closes the innermost open fork can be closed from before it. -/
theorem Graph.Drains.of_stray {g : Graph} {k n : Node} {q p : List Node} (isJoin : k.kind = .join)
    (inner : openForks q = []) (closed : strayJoins q = 0) (drains : g.Drains k (q ++ n :: p)) : g.Drains n p := by
  obtain ⟨rest, whole, enough⟩ := drains
  refine ⟨rest ++ k :: q, by simpa using whole, ?_⟩
  have inside : openForks (k :: q) = [] := by rw [openForks_join isJoin, inner, List.tail_nil]
  rw [strayJoins_append, inside, strayJoins_join isJoin, if_pos inner, closed]
  rw [← List.cons_append, openForks_stray isJoin inner closed, List.length_tail] at enough
  simp only [List.length_nil]
  omega

theorem Graph.Resumes.drains {g : Graph} (resumes : g.Resumes) {j : Node} {p : List Node}
    (trail : g.Trail g.Leads (j :: p)) (isJoin : j.kind = .join) : g.Drains j p := by
  induction depth : (openForks (j :: p)).length using Nat.strongRecOn generalizing j p with
  | ind bound ih =>
    by_cases outside : openForks (j :: p) = []
    · exact ⟨[], trail, by simp [outside]⟩
    · obtain ⟨q, further, stray⟩ := resumes j p trail isJoin outside
      obtain ⟨above, k, below, rfl, isJoinK, inner, closed⟩ := exists_stray stray
      rw [List.append_assoc] at further
      have arrival : g.Trail g.Leads (k :: (below ++ j :: p)) := further.before
      have opened : openForks (k :: (below ++ j :: p)) = (openForks (j :: p)).tail :=
        openForks_stray isJoinK inner closed
      have positive : 0 < (openForks (j :: p)).length := List.length_pos_iff.mpr outside
      have less : (openForks (k :: (below ++ j :: p))).length < bound := by
        rw [opened, List.length_tail]
        omega
      exact (ih _ less arrival isJoinK rfl).of_stray isJoinK inner closed

/-- A fork that some join closes can be closed wherever it is opened, with all around it. -/
theorem Graph.Resumes.drains_fork {g : Graph} (resumes : g.Resumes) {f j : Node} {p : List Node}
    (trail : g.Trail g.Leads (f :: p)) (closes : g.Closes g.Leads f j) : g.Drains f p := by
  obtain ⟨q, other, arrival, isFork, isJoin, inner, closed⟩ := closes
  have further : g.Trail g.Leads (j :: (q ++ f :: p)) := arrival.splice trail
  obtain ⟨rest, whole, enough⟩ := resumes.drains further isJoin
  refine ⟨rest ++ j :: q, by simpa using whole, ?_⟩
  have opened : openForks (j :: (q ++ f :: p)) = openForks p := openForks_closed isFork isJoin inner closed
  have inside : openForks (j :: q) = [] := by rw [openForks_join isJoin, inner, List.tail_nil]
  rw [strayJoins_append, inside, strayJoins_join isJoin, if_pos inner, closed, openForks_fork isFork]
  rw [opened] at enough
  simp only [List.length_nil, List.length_cons]
  omega

/-- A node from which everything can be closed is as deep on every trail. -/
theorem Graph.Nested.depth_le {g : Graph} (nested : g.Nested) {n : Node} {p other : List Node}
    (drains : g.Drains n p) (trail : g.Trail g.Leads (n :: other)) :
    (openForks (n :: p)).length ≤ (openForks (n :: other)).length := by
  obtain ⟨q, further, enough⟩ := drains
  have whole := further.splice trail
  have stray : strayJoins (q ++ n :: other) = 0 := by
    cases q with
    | nil => exact nested n other trail
    | cons m q => exact nested m (q ++ n :: other) whole
  rw [strayJoins_append] at stray
  omega

namespace ForkJoin

/-! ### The joins that are remembered -/

/-- The joins of a state are those of the outermost open forks. -/
structure Stacked (g : Graph) (s : State) : Prop where
  few : s.joins.length ≤ s.forks.length
  leveled : ∀ above j below, s.joins = above ++ j :: below →
    ∃ n p, g.Trail g.Leads (n :: p) ∧ n.kind = .join ∧ n.name = j ∧ (openForks (n :: p)).length = below.length

/-- What a walk from a trail keeps of the joins, and what it adds. -/
structure Kept (g : Graph) (p : List Node) (s : State) (entries : List Entry) (final : State) : Prop where
  stacked : Stacked g final
  suffix : s.joins <:+ final.joins
  /-- Any fork or join closes everything in the end. -/
  full : (∃ e ∈ entries, e.node.kind = .fork ∨ e.node.kind = .join) → final.joins.length = final.forks.length
  /-- The join that closed a fork of the trail is remembered for that fork. -/
  remembered : ∀ e ∈ entries, e.node.kind = .join → ∀ q, e.trail = q ++ p → openForks q = [] →
    final.joins[strayJoins q]? = some e.node.name

variable {g : Graph} {p : List Node} {s inner last final : State} {v : Visit} {n : Node} {visits : List Visit}
  {undo : Undo} {entries below : List Entry}

theorem Kept.trans {mid : State} {later : List Entry} (first : Kept g p s entries mid)
    (second : Kept g p mid later final) (same : final.forks = mid.forks) :
    Kept g p s (entries ++ later) final := by
  have settled (some : ∃ e ∈ entries, e.node.kind = .fork ∨ e.node.kind = .join) : final.joins = mid.joins := by
    have few := second.stacked.few
    rw [same, ← first.full some] at few
    exact (second.suffix.eq_of_length_le few).symm
  refine ⟨second.stacked, first.suffix.trans second.suffix, ?_, ?_⟩
  · rintro ⟨e, member, isBracket⟩
    rcases List.mem_append.mp member with member | member
    · rw [settled ⟨e, member, isBracket⟩, same]
      exact first.full ⟨e, member, isBracket⟩
    · exact second.full ⟨e, member, isBracket⟩
  · intro e member isJoin q split inner
    rcases List.mem_append.mp member with member | member
    · rw [settled ⟨e, member, .inr isJoin⟩]
      exact first.remembered e member isJoin q split inner
    · exact second.remembered e member isJoin q split inner

/-- A join is the one on top already, or it is put there. -/
theorem expectJoin_cases {name : String} (expected : (s.expectJoin name).head? = some name) :
    s.joins = name :: (s.expectJoin name).tail ∨
      (s.joins = (s.expectJoin name).tail ∧ s.joins.length < s.forks.length) := by
  unfold State.expectJoin at expected ⊢
  split
  · rename_i waits
    exact .inr ⟨rfl, waits.1⟩
  · rename_i settled
    rw [if_neg settled] at expected
    exact .inl (List.cons_head?_tail expected).symm

/-- No join is kept without a fork. -/
theorem few_enter (entered : enter g s v n = .ok (visits, undo, inner)) (few : s.joins.length ≤ s.forks.length) :
    inner.joins.length ≤ inner.forks.length := by
  obtain ⟨marks, _, shifts, _⟩ := enter_cases entered
  cases shifts with
  | plain _ _ _ => exact few
  | fork _ => exact Nat.le_succ_of_le few
  | join _ opened expected =>
    dsimp only at opened
    rw [opened, List.length_cons] at few
    rcases expectJoin_cases expected with top | ⟨same, waits⟩
    · dsimp only at top
      rw [top, List.length_cons] at few
      exact Nat.le_of_succ_le_succ few
    · dsimp only at same waits
      rw [opened, List.length_cons, same] at waits
      exact Nat.le_of_lt_succ waits

theorem stacked_enter (entered : enter g s v n = .ok (visits, undo, inner)) (stacked : Stacked g s) :
    Stacked g inner := by
  refine ⟨few_enter entered stacked.few, ?_⟩
  obtain ⟨marks, _, shifts, _⟩ := enter_cases entered
  cases shifts with
  | plain _ _ _ => exact stacked.leveled
  | fork _ => exact stacked.leveled
  | join isJoin opened expected =>
    intro above j below split
    rcases expectJoin_cases expected with top | ⟨same, _⟩
    · exact stacked.leveled (n.name :: above) j below (top.trans (congrArg _ split))
    · exact stacked.leveled above j below (same.trans split)

/-- After a node from which everything can be closed, every open fork has its join. -/
theorem full_inside (single : g.SingleExit) (position : At s p) (along : v.Continues g p)
    (found : resolve g s v = .ok n) (entered : enter g s v n = .ok (visits, undo, inner))
    (inside : Walks g (n :: p) inner visits below last) (drains : g.Drains n p)
    (kept : Kept g (n :: p) inner below last) : last.joins.length = last.forks.length := by
  by_cases outside : openForks (n :: p) = []
  · have few := kept.stacked.few
    rw [(inside.at (at_enter position entered)).forks, outside] at few ⊢
    simpa using few
  · obtain ⟨q, further, enough⟩ := drains
    have positive : 0 < (openForks (n :: p)).length := List.length_pos_iff.mpr outside
    obtain ⟨above, k, between, rfl, isJoin, _⟩ := exists_stray (q := q) (by omega)
    rw [List.append_assoc] at further
    obtain ⟨e, member, rfl, _⟩ := inside.reaches single position along found entered further.before
    exact kept.full ⟨e, member, .inr isJoin⟩

theorem kept_plain (inside : Walks g (n :: p) inner visits below last) (notFork : n.kind ≠ .fork)
    (notJoin : n.kind ≠ .join) (joins : inner.joins = s.joins) (kept : Kept g (n :: p) inner below last) :
    Kept g p s (⟨n, p, s, v⟩ :: below) (last.leave .nothing) := by
  refine ⟨⟨kept.stacked.few, kept.stacked.leveled⟩, joins ▸ kept.suffix, ?_, ?_⟩
  · rintro ⟨e, member, isBracket⟩
    rcases List.mem_cons.mp member with rfl | member
    · exact absurd isBracket (not_or.mpr ⟨notFork, notJoin⟩)
    · exact kept.full ⟨e, member, isBracket⟩
  · intro e member isJoin q split closed
    rcases List.mem_cons.mp member with rfl | member
    · exact absurd isJoin notJoin
    · obtain ⟨q', rfl, whole⟩ := stretch_below (inside.suffix e member) split
      have opens : openForks [n] = [] := openForks_plain notFork notJoin []
      rw [openForks_append, opens, List.drop_nil, List.append_nil] at closed
      rw [strayJoins_append, opens, strayJoins_other notJoin]
      simpa [strayJoins, State.leave] using kept.remembered e member isJoin q' whole closed

theorem kept_fork (inside : Walks g (n :: p) inner visits below last) (isFork : n.kind = .fork)
    (forks : inner.forks = n.name :: s.forks) (joins : inner.joins = s.joins) (stacked : Stacked g s)
    (full : last.joins.length = last.forks.length) (kept : Kept g (n :: p) inner below last) :
    Kept g p s (⟨n, p, s, v⟩ :: below) (last.leave .closeFork) := by
  have depth : last.forks.length = s.forks.length + 1 := by rw [inside.forks, forks, List.length_cons]
  obtain ⟨j, js, same⟩ : ∃ j js, last.joins = j :: js := List.exists_cons_of_length_pos (by omega)
  have length : js.length = s.forks.length := by
    rw [same, List.length_cons] at full
    omega
  have tail : (last.leave .closeFork).joins = js := by simp [State.leave, same]
  refine ⟨⟨?_, ?_⟩, ?_, ?_, ?_⟩
  · simp [State.leave, same, inside.forks, forks, length]
  · intro above k rest split
    rw [tail] at split
    exact kept.stacked.leveled (j :: above) k rest (by rw [same, split, List.cons_append])
  · have suffix := kept.suffix
    rw [joins, same, List.suffix_cons_iff] at suffix
    rcases suffix with whole | suffix
    · have few := stacked.few
      rw [whole, List.length_cons] at few
      omega
    · rwa [tail]
  · intro _
    simp [State.leave, same, inside.forks, forks, length]
  · intro e member isJoin q split closed
    rcases List.mem_cons.mp member with rfl | member
    · rw [isFork] at isJoin
      cases isJoin
    · obtain ⟨q', rfl, whole⟩ := stretch_below (inside.suffix e member) split
      have opens : openForks [n] = [n] := openForks_fork isFork []
      rw [openForks_append, opens, List.append_eq_nil_iff, List.drop_eq_nil_iff, List.length_singleton] at closed
      have found := kept.remembered e member isJoin q' whole closed.1
      rw [strayJoins_append, opens, strayJoins_other (by simp [isFork]), tail]
      obtain ⟨i, positive⟩ : ∃ i, strayJoins q' = i + 1 := Nat.exists_eq_succ_of_ne_zero (by omega)
      rw [same, positive, List.getElem?_cons_succ] at found
      simpa [strayJoins, positive] using found

theorem kept_join (inside : Walks g (n :: p) inner visits below last) (nested : g.Nested)
    (drains : g.Drains n p) (trail : g.Trail g.Leads (n :: p)) (isJoin : n.kind = .join)
    (expected : (s.expectJoin n.name).head? = some n.name) (joins : inner.joins = (s.expectJoin n.name).tail)
    (position : At inner (n :: p)) (stacked : Stacked g s) {f : String} (full : last.joins.length = last.forks.length)
    (kept : Kept g (n :: p) inner below last) :
    Kept g p s (⟨n, p, s, v⟩ :: below) (last.leave (.reopenFork f n.name)) := by
  have depth : last.joins.length = (openForks (n :: p)).length := by
    rw [full, (inside.at position).forks, List.length_map]
  refine ⟨⟨?_, ?_⟩, ?_, ?_, ?_⟩
  · simp [State.leave, full]
  · intro above j rest split
    simp only [State.leave, List.cons_eq_append_iff] at split
    rcases split with ⟨_, split⟩ | ⟨above, _, split⟩
    · obtain ⟨rfl, rfl⟩ := List.cons.inj split
      exact ⟨n, p, trail, isJoin, rfl, depth.symm⟩
    · exact kept.stacked.leveled above j rest split
  · have suffix := kept.suffix
    rw [joins] at suffix
    simp only [State.leave]
    rcases expectJoin_cases expected with top | ⟨same, _⟩
    · -- The join was on top for a fork as deep as the one it closes now.
      obtain ⟨m, q, arrival, _, named, level⟩ := stacked.leveled [] n.name _ top
      have node : m = n := Graph.eq_of_name_eq (arrival.mem m (List.mem_cons_self ..))
        (trail.mem n (List.mem_cons_self ..)) named
      have deep := nested.depth_le drains (node ▸ arrival)
      have whole := suffix.eq_of_length_le (by rw [depth, ← level, node]; exact deep)
      rw [top, whole]
    · rw [same]
      exact suffix.trans (List.suffix_cons n.name last.joins)
  · intro _
    simp [State.leave, full]
  · intro e member joinE q split closed
    rcases List.mem_cons.mp member with rfl | member
    · have none : q = [] := by simpa using split
      rw [none]
      rfl
    · obtain ⟨q', rfl, whole⟩ := stretch_below (inside.suffix e member) split
      have opens : openForks [n] = [] := openForks_join isJoin []
      rw [openForks_append, opens, List.drop_nil, List.append_nil] at closed
      have found := kept.remembered e member joinE q' whole closed
      have stray : strayJoins (q' ++ [n]) = strayJoins q' + 1 := by
        rw [strayJoins_append, opens, strayJoins_join isJoin]
        simp [openForks, strayJoins, Nat.add_comm]
      simpa [stray, State.leave] using found

/-- What a walk keeps, where everything can be closed from all forks and joins. -/
theorem Walks.kept (single : g.SingleExit) (nested : g.Nested)
    (drains : ∀ n p, g.Trail g.Leads (n :: p) → n.kind = .fork ∨ n.kind = .join → g.Drains n p)
    (walks : Walks g p s visits entries final) (position : At s p) (along : ∀ v ∈ visits, v.Continues g p)
    (stacked : Stacked g s) : Kept g p s entries final := by
  induction walks with
  | done => exact ⟨stacked, List.suffix_refl _, fun ⟨_, member, _⟩ => (nomatch member), fun _ member => (nomatch member)⟩
  | @visit p s inner last final v visits rest n undo below after found entered inside onward ihInside ihOnward =>
    have here := along v (List.mem_cons_self ..)
    have trail := here.leads n (target_of_resolve found)
    have arrived := at_enter position entered
    have back := at_leave position entered inside
    obtain ⟨marks, _, shifts, rfl⟩ := enter_cases entered
    have kept := ihInside arrived (continues_of_enter here found entered) (stacked_enter entered stacked)
    have ihOnward := ihOnward back fun w later => along w (List.mem_cons_of_mem _ later)
    have first : Kept g p s (⟨n, p, s, v⟩ :: below) (last.leave undo) := by
      cases shifts with
      | plain notFork notJoin _ => exact kept_plain inside notFork notJoin rfl kept
      | fork isFork =>
        have full := full_inside single position here found entered inside (drains n p trail (.inl isFork)) kept
        exact kept_fork inside isFork rfl rfl stacked full kept
      | join isJoin opened expected =>
        have drained := drains n p trail (.inr isJoin)
        have full := full_inside single position here found entered inside drained kept
        exact kept_join (s := s) inside nested drained trail isJoin expected rfl arrived stacked full kept
    have whole := first.trans (ihOnward first.stacked) onward.forks
    rwa [List.cons_append] at whole

/-- At every moment of a walk, the joins of the state are those of the outermost open forks. -/
theorem Walks.stacked (single : g.SingleExit) (nested : g.Nested)
    (drains : ∀ n p, g.Trail g.Leads (n :: p) → n.kind = .fork ∨ n.kind = .join → g.Drains n p)
    (walks : Walks g p s visits entries final) (position : At s p) (along : ∀ v ∈ visits, v.Continues g p)
    (stacked : Stacked g s) : ∀ e ∈ entries, Stacked g e.state := by
  induction walks with
  | done => intro e member; cases member
  | @visit p s inner last final v visits rest n undo below after found entered inside onward ihInside ihOnward =>
    have here := along v (List.mem_cons_self ..)
    have first : Walks g p s [v] (⟨n, p, s, v⟩ :: (below ++ [])) (last.leave undo) := .visit found entered inside .done
    have kept := first.kept single nested drains position
      (fun w member => by rw [List.mem_singleton.mp member]; exact here) stacked
    intro e member
    rcases mem_entries member with rfl | member | member
    · exact stacked
    · exact ihInside (at_enter position entered) (continues_of_enter here found entered)
        (stacked_enter entered stacked) e member
    · exact ihOnward (at_leave position entered inside) (fun w later => along w (List.mem_cons_of_mem _ later))
        kept.stacked e member

/-- Two joins that close one fork are the same: the walk remembers the first when it comes to the other. -/
theorem Accepted.join_unique (accepted : Accepted g entries) (single : g.SingleExit) (resumes : g.Resumes)
    (closed : ∀ f, g.Reachable f → f.kind = .fork → ∃ j, g.Closes g.Leads f j) {f j k : Node}
    (left : g.Closes g.Leads f j) (right : g.Closes g.Leads f k) : j = k := by
  have nested : g.Nested := fun n p trail => (accepted.nested single trail).1
  have drains : ∀ n p, g.Trail g.Leads (n :: p) → n.kind = .fork ∨ n.kind = .join → g.Drains n p := by
    rintro n p trail (isFork | isJoin)
    · obtain ⟨j, closes⟩ := closed n (trail.reachable n (List.mem_cons_self ..)) isFork
      exact resumes.drains_fork trail closes
    · exact resumes.drains trail isJoin
  obtain ⟨q, p, trail, _, isJoin, inner, shut⟩ := left
  obtain ⟨q', p', trail', _, isJoin', inner', shut'⟩ := right
  have other : g.Trail g.Leads (k :: q' ++ f :: p) := trail'.splice trail.before
  obtain ⟨e, member, rfl, rfl⟩ := accepted.covers single trail.before
  have proper := accepted.proper e member
  obtain ⟨s, final, first, walks⟩ := accepted
  have stacked := walks.stacked single nested drains at_start (continues_start first)
    ⟨Nat.le_refl _, fun above j below split => by simp at split⟩ e member
  obtain ⟨visits, undo, after, below, last, entered, inside, _⟩ := walks.inside member
  have kept := inside.kept single nested drains (at_enter proper.position entered)
    (continues_of_enter proper.along proper.found entered) (stacked_enter entered stacked)
  obtain ⟨e₁, member₁, rfl, split₁⟩ := inside.reaches single proper.position proper.along proper.found entered trail
  obtain ⟨e₂, member₂, rfl, split₂⟩ := inside.reaches single proper.position proper.along proper.found entered other
  have top := kept.remembered e₁ member₁ isJoin q split₁ inner
  have again := kept.remembered e₂ member₂ isJoin' q' split₂ inner'
  rw [shut] at top
  rw [shut', top] at again
  exact Graph.eq_of_name_eq (trail.mem _ (by simp)) (other.mem _ (by simp)) (Option.some.inj again)

end ForkJoin

/-! ### Pairs -/

/-- Where names are sent to different ones among equally many, none of these is left out. -/
private theorem exists_of_same_length {names others : List String} (distinct : names.Nodup)
    (same : others.length = names.length) {c : String → String} (into : ∀ b ∈ names, c b ∈ others)
    (apart : ∀ a ∈ names, ∀ b ∈ names, c a = c b → a = b) : ∀ a ∈ others, ∃ b ∈ names, c b = a := by
  have images : (names.map c).Nodup := distinct.map_on fun a left b right equal => apart a left b right equal
  have sub : names.map c ⊆ others := by
    intro a member
    obtain ⟨b, listed, rfl⟩ := List.mem_map.mp member
    exact into b listed
  have perm := (List.subperm_of_subset images sub).perm_of_length_le (by rw [List.length_map, same])
  intro a member
  exact List.mem_map.mp (perm.mem_iff.mpr member)

/-- Where no fork is closed by two joins, as many forks as joins are enough for pairs. -/
private theorem closed_of_join_unique {g : Graph} {report : StructureReport} (nested : g.Nested)
    (same : report.forks.length = report.joins.length)
    (forks : ∀ name, name ∈ report.forks ↔ ∃ n, g.Reachable n ∧ n.kind = .fork ∧ n.name = name)
    (joins : report.joins.Nodup ∧ ∀ name, name ∈ report.joins ↔ ∃ n, g.Reachable n ∧ n.kind = .join ∧ n.name = name)
    (unique : ∀ f j k, g.Closes g.Leads f j → g.Closes g.Leads f k → j = k) :
    (∀ f, g.Reachable f → f.kind = .fork → ∃ j, g.Closes g.Leads f j) ∧
      ∀ f h j, g.Closes g.Leads f j → g.Closes g.Leads h j → f = h := by
  have owner : ∀ b ∈ report.joins, ∃ a ∈ report.forks, ∃ f j, g.Closes g.Leads f j ∧ f.name = a ∧ j.name = b := by
    intro b listed
    obtain ⟨j, reachable, isJoin, rfl⟩ := (joins.2 b).mp listed
    obtain ⟨p, trail⟩ := Graph.reachable_iff_trail.mp reachable
    obtain ⟨f, closes⟩ := nested.closes trail isJoin
    exact ⟨f.name, (forks f.name).mpr ⟨f, closes.reachable.1, closes.isFork, rfl⟩, f, j, closes, rfl, rfl⟩
  choose! c into owns using owner
  -- A fork and the join it is closed by, found from the name of the fork.
  have found {f j : Node} {b : String} (closes : g.Closes g.Leads f j) (listed : b ∈ report.joins)
      (named : c b = f.name) : j.name = b := by
    obtain ⟨f', j', closes', name, rfl⟩ := owns b listed
    have node : f' = f := Graph.eq_of_name_eq closes'.reachable.1.mem closes.reachable.1.mem (name.trans named)
    rw [unique f j j' closes (node ▸ closes')]
  have apart : ∀ a ∈ report.joins, ∀ b ∈ report.joins, c a = c b → a = b := by
    intro a left b right equal
    obtain ⟨f, j, closes, named, rfl⟩ := owns a left
    exact found closes right (equal.symm.trans named.symm)
  have covered := exists_of_same_length joins.1 same into apart
  have own {f j : Node} (closes : g.Closes g.Leads f j) : c j.name = f.name := by
    obtain ⟨b, listed, named⟩ := covered f.name ((forks f.name).mpr ⟨f, closes.reachable.1, closes.isFork, rfl⟩)
    rw [found closes listed named, named]
  refine ⟨?_, ?_⟩
  · intro f reachable isFork
    obtain ⟨b, listed, named⟩ := covered f.name ((forks f.name).mpr ⟨f, reachable, isFork, rfl⟩)
    obtain ⟨f', j, closes, name, _⟩ := owns b listed
    have node : f' = f := Graph.eq_of_name_eq closes.reachable.1.mem reachable.mem (name.trans named)
    exact ⟨j, node ▸ closes⟩
  · intro f h j left right
    exact Graph.eq_of_name_eq left.reachable.1.mem right.reachable.1.mem ((own left).symm.trans (own right))

/-- Where every fork is closed and joins go on to close what they leave open, forks and joins are in pairs. -/
theorem Graph.paired_of_closed {g : Graph} {r : Registry} {report : StructureReport} (single : g.SingleExit)
    (checked : g.checkStructure r = .ok report) (passed : g.checkForkJoin report = .ok ()) (resumes : g.Resumes)
    (closed : ∀ f, g.Reachable f → f.kind = .fork → ∃ j, g.Closes g.Leads f j) : g.Paired := by
  obtain ⟨s, first, explored⟩ := Graph.explored_of_checkStructure checked
  obtain ⟨_, ⟨_, forks⟩, joins⟩ := explored.report first
  obtain ⟨same, plain | ⟨entries, accepted⟩⟩ := ForkJoin.accepted_of_check checked passed
  · have none {f j : Node} : ¬ g.Closes g.Leads f j :=
      fun closes => (plain f closes.reachable.1).1 closes.isFork
    exact ⟨fun _ _ _ closes => absurd closes none, fun _ _ _ closes => absurd closes none⟩
  · have nested : g.Nested := fun n p trail => (accepted.nested single trail).1
    have unique : ∀ f j k, g.Closes g.Leads f j → g.Closes g.Leads f k → j = k :=
      fun f j k left right => accepted.join_unique single resumes closed left right
    exact ⟨unique, (closed_of_join_unique nested same forks joins unique).2⟩

/-- In an accepted graph, a way on to an end closes what is open. -/
theorem Graph.stray_of_end {g : Graph} {r : Registry} {report : StructureReport} (single : g.SingleExit)
    (checked : g.checkStructure r = .ok report) (passed : g.checkForkJoin report = .ok ()) {e n : Node}
    {q p : List Node} (further : g.Trail g.Leads (e :: (q ++ n :: p))) (isEnd : e.kind = .finish)
    (inside : openForks (n :: p) ≠ []) : strayJoins (e :: q) ≠ 0 := by
  intro closed
  have outside : openForks ((e :: q) ++ n :: p) = [] := by
    rcases (ForkJoin.accepted_of_check checked passed).2 with plain | ⟨entries, accepted⟩
    · exact openForks_eq_nil fun m member => (plain m (further.reachable m member)).1
    · exact (accepted.nested single further).2 isEnd
  rw [openForks_append, closed, List.drop_zero] at outside
  exact inside (List.append_eq_nil_iff.mp outside).2

/-- Where every join of an accepted graph leads on to an end, it closes what it leaves open. -/
theorem Graph.resumes_of_ends {g : Graph} {r : Registry} {report : StructureReport} (single : g.SingleExit)
    (checked : g.checkStructure r = .ok report) (passed : g.checkForkJoin report = .ok ())
    (ends : ∀ j p, g.Trail g.Leads (j :: p) → j.kind = .join →
      ∃ e q, g.Trail g.Leads (e :: (q ++ j :: p)) ∧ e.kind = .finish) : g.Resumes := by
  intro j p trail isJoin inside
  obtain ⟨e, q, further, isEnd⟩ := ends j p trail isJoin
  exact ⟨e :: q, further, stray_of_end single checked passed further isEnd inside⟩

theorem Graph.resumes_nestedForks : nestedForks.Resumes := by
  refine resumes_of_ends singleExit_nestedForks checkStructure_nestedForks checkForkJoin_nestedForks ?_
  intro j p trail isJoin
  have joins : ∀ n ∈ nestedForks.nodes, n.kind = .join →
      n = ⟨"close", .join ["meet"]⟩ ∨ n = ⟨"meet", .join ["done"]⟩ := by decide
  rcases joins j (trail.mem j (List.mem_cons_self ..)) isJoin with rfl | rfl
  · exact ⟨⟨"done", .finish []⟩, [⟨"meet", .join ["done"]⟩], .next (.next trail (by decide)) (by decide), rfl⟩
  · exact ⟨⟨"done", .finish []⟩, [], .next trail (by decide), rfl⟩

theorem Graph.closed_nestedForks :
    ∀ f, nestedForks.Reachable f → f.kind = .fork → ∃ j, nestedForks.Closes nestedForks.Leads f j := by
  intro f reachable isFork
  have forks : ∀ n ∈ nestedForks.nodes, n.kind = .fork →
      n = ⟨"split", .fork ["left", "inner"]⟩ ∨ n = ⟨"inner", .fork ["near", "far"]⟩ := by decide
  rcases forks f reachable.mem isFork with rfl | rfl
  · exact ⟨⟨"meet", .join ["done"]⟩, [⟨"left", .action "meet" "stop" { conf := "<shell/>" }⟩],
      [⟨startName, .start ["split"]⟩], by decide, by decide⟩
  · exact ⟨⟨"close", .join ["meet"]⟩, [⟨"near", .action "close" "stop" { conf := "<shell/>" }⟩],
      [⟨"split", .fork ["left", "inner"]⟩, ⟨startName, .start ["split"]⟩], by decide, by decide⟩

/-- An accepted graph in which joins go on to close what they leave open has its forks and joins in
    pairs exactly if every fork is closed by some join. -/
theorem Graph.paired_iff_closed {g : Graph} {r : Registry} {report : StructureReport} (single : g.SingleExit)
    (checked : g.checkStructure r = .ok report) (passed : g.checkForkJoin report = .ok ()) (resumes : g.Resumes) :
    g.Paired ↔ ∀ f, g.Reachable f → f.kind = .fork → ∃ j, g.Closes g.Leads f j := by
  refine ⟨fun paired => ?_, paired_of_closed single checked passed resumes⟩
  obtain ⟨s, first, explored⟩ := Graph.explored_of_checkStructure checked
  obtain ⟨_, ⟨_, forks⟩, joins⟩ := explored.report first
  obtain ⟨same, plain | ⟨entries, accepted⟩⟩ := ForkJoin.accepted_of_check checked passed
  · exact fun f reachable isFork => absurd isFork (plain f reachable).1
  · have nested : g.Nested := fun n p trail => (accepted.nested single trail).1
    exact (closed_of_join_unique nested same forks joins paired.join_unique).1

theorem Graph.paired_nestedForks : nestedForks.Resumes ∧ nestedForks.Paired :=
  ⟨resumes_nestedForks, (paired_iff_closed singleExit_nestedForks checkStructure_nestedForks
    checkForkJoin_nestedForks resumes_nestedForks).mpr closed_nestedForks⟩

/-- A fork that no join closes, between two branches of another one. -/
def Graph.lostJoin : Graph where
  name := "lost"
  nodes :=
    [⟨startName, .start ["outer"]⟩, ⟨"outer", .fork ["near", "inner", "far"]⟩, ⟨"inner", .fork ["stop"]⟩,
      ⟨"near", .join ["done"]⟩, ⟨"far", .join ["done"]⟩, ⟨"stop", .kill none []⟩, ⟨"done", .finish []⟩]
  distinct := by decide

/-- The fork that is left in between takes the join of the outer one with it. -/
theorem Graph.not_paired_lostJoin :
    lostJoin.SingleExit ∧
    lostJoin.checkStructure (Registry.withBuiltins []) = .ok ⟨["outer", "inner"], ["near", "far"], 7⟩ ∧
    lostJoin.checkForkJoin ⟨["outer", "inner"], ["near", "far"], 7⟩ = .ok () ∧ ¬ lostJoin.Paired := by
  refine ⟨by decide, checkStructure_of_turns rfl rfl (k := 40) (by decide +kernel), by decide +kernel, fun paired => ?_⟩
  have near : lostJoin.Closes lostJoin.Leads ⟨"outer", .fork ["near", "inner", "far"]⟩ ⟨"near", .join ["done"]⟩ :=
    ⟨[], [⟨startName, .start ["outer"]⟩], by decide, by decide⟩
  have far : lostJoin.Closes lostJoin.Leads ⟨"outer", .fork ["near", "inner", "far"]⟩ ⟨"far", .join ["done"]⟩ :=
    ⟨[], [⟨startName, .start ["outer"]⟩], by decide, by decide⟩
  exact absurd (paired.join_unique _ _ _ near far) (by decide)

/-- A join that closes the inner one of two forks and goes nowhere from there. -/
def Graph.deadJoin : Graph where
  name := "dead"
  nodes :=
    [⟨startName, .start ["outer"]⟩, ⟨"outer", .fork ["inner", "near"]⟩, ⟨"inner", .fork ["near", "far"]⟩,
      ⟨"near", .join ["stop"]⟩, ⟨"far", .join ["stop"]⟩, ⟨"stop", .kill none []⟩]
  distinct := by decide

/-- Forks that are all closed are not enough where joins do not go on. -/
theorem Graph.not_paired_deadJoin :
    deadJoin.SingleExit ∧
    deadJoin.checkStructure (Registry.withBuiltins []) = .ok ⟨["outer", "inner"], ["near", "far"], 6⟩ ∧
    deadJoin.checkForkJoin ⟨["outer", "inner"], ["near", "far"], 6⟩ = .ok () ∧
    (∀ f ∈ deadJoin.nodes, f.kind = .fork → ∃ j, deadJoin.Closes deadJoin.Leads f j) ∧ ¬ deadJoin.Paired := by
  have outer : deadJoin.Closes deadJoin.Leads ⟨"outer", .fork ["inner", "near"]⟩ ⟨"near", .join ["stop"]⟩ :=
    ⟨[], [⟨startName, .start ["outer"]⟩], by decide, by decide⟩
  have near : deadJoin.Closes deadJoin.Leads ⟨"inner", .fork ["near", "far"]⟩ ⟨"near", .join ["stop"]⟩ :=
    ⟨[], [⟨"outer", .fork ["inner", "near"]⟩, ⟨startName, .start ["outer"]⟩], by decide, by decide⟩
  have far : deadJoin.Closes deadJoin.Leads ⟨"inner", .fork ["near", "far"]⟩ ⟨"far", .join ["stop"]⟩ :=
    ⟨[], [⟨"outer", .fork ["inner", "near"]⟩, ⟨startName, .start ["outer"]⟩], by decide, by decide⟩
  refine ⟨by decide, checkStructure_of_turns rfl rfl (k := 40) (by decide +kernel), by decide +kernel, ?_, fun paired => ?_⟩
  · intro f member isFork
    have forks : ∀ n ∈ deadJoin.nodes, n.kind = .fork →
        n = ⟨"outer", .fork ["inner", "near"]⟩ ∨ n = ⟨"inner", .fork ["near", "far"]⟩ := by decide
    rcases forks f member isFork with rfl | rfl
    · exact ⟨_, outer⟩
    · exact ⟨_, near⟩
  · exact absurd (paired.join_unique _ _ _ near far) (by decide)

end WorkflowCompiler
