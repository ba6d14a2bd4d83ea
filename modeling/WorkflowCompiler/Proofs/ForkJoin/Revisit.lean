import WorkflowCompiler.Proofs.ForkJoin.CleanVisits
import WorkflowCompiler.Proofs.ForkJoin.Pairing

/-!
Nodes that run more than once. A node runs twice where ways without an error lead
to it through two targets of a fork that is open all the while (`RunsTwice`). The
check accepts two clean visits of a node that share their first decision, also
where that decision comes before the fork and so cannot keep its branches apart.
Below a fork that the walk first comes to without a decision this cannot happen,
as long as each join closes one fork only (`Graph.not_runsTwice`). The walk enters
trails in the order of transitions (`Walks.ordered`), so it is the first trail to
the fork that counts (`Accepted.first_clean`), and every node inside the fork is
entered cleanly from each target that leads to it (`Walks.cleanly`).
-/
namespace WorkflowCompiler

/-- Two trails part at a node, and the first takes the transition that is declared earlier. -/
def Earlier (a b : List Node) : Prop :=
  ∃ m base t u a' b', a = a' ++ t :: m :: base ∧ b = b' ++ u :: m :: base ∧
    m.transitions.idxOf t.name < m.transitions.idxOf u.name

/-- A way without an error from a fork through one of its targets, on which the fork is still open. -/
def Graph.Branch (g : Graph) (f t x : Node) : Prop :=
  ∃ q p, g.Trail g.Succeeds (q ++ f :: p) ∧ q.head? = some x ∧ q.getLast? = some t ∧ strayJoins q = 0

/-- Two branches of a fork come to one node, which is not where ways may meet. -/
def Graph.RunsTwice (g : Graph) (f x : Node) : Prop :=
  f.kind = .fork ∧ x.kind ≠ .join ∧ x.kind ≠ .kill ∧ x.kind ≠ .finish ∧
    ∃ t u, t ≠ u ∧ g.Branch f t x ∧ g.Branch f u x

namespace ForkJoin

/-! ### The order of a walk -/

/-- Of two visits that go on from the end of a trail, the first goes to the target that is declared earlier. -/
def Visit.Before (p : List Node) (v w : Visit) : Prop :=
  ∃ m base t u, p = m :: base ∧ v.target = some t ∧ w.target = some u ∧
    m.transitions.idxOf t < m.transitions.idxOf u

theorem pairwise_distinctAfter (seen names : List String) :
    (distinctAfter seen names).Pairwise fun t u => names.idxOf t < names.idxOf u := by
  induction names generalizing seen with
  | nil => exact .nil
  | cons name names ih =>
    -- Further on, positions are one more than among the other names.
    have further {known : List String} (listed : name ∈ known) :
        (distinctAfter known names).Pairwise fun t u => (name :: names).idxOf t < (name :: names).idxOf u := by
      refine (ih known).imp_of_mem fun {t u} left right less => ?_
      have other {a : String} (member : a ∈ distinctAfter known names) : name ≠ a := by
        rintro rfl
        exact (mem_distinctAfter.mp member).2 listed
      rw [List.idxOf_cons_ne _ (other left), List.idxOf_cons_ne _ (other right)]
      exact Nat.succ_lt_succ less
    unfold distinctAfter
    split
    · rename_i known
      exact further known
    · refine List.pairwise_cons.mpr ⟨fun u member => ?_, further (List.mem_cons_self ..)⟩
      have other : name ≠ u := by
        rintro rfl
        exact (mem_distinctAfter.mp member).2 (List.mem_cons_self ..)
      rw [List.idxOf_cons_self, List.idxOf_cons_ne _ other]
      exact Nat.succ_pos _

/-- The clean exits of a node are in the order of its transitions. -/
theorem pairwise_exits (n : Node) :
    (exits n).Pairwise fun e e' => e.2 = true → e'.2 = true →
      ∃ t u, e.1 = some t ∧ e'.1 = some u ∧ n.transitions.idxOf t < n.transitions.idxOf u := by
  have sorted (names : List String) (same : n.transitions = names) :
      ((distinct names).map fun t => (some t, true)).Pairwise fun e e' => e.2 = true → e'.2 = true →
        ∃ t u, e.1 = some t ∧ e'.1 = some u ∧ n.transitions.idxOf t < n.transitions.idxOf u := by
    rw [List.pairwise_map, same]
    exact (pairwise_distinctAfter [] names).imp fun less _ _ => ⟨_, _, rfl, rfl, less⟩
  unfold exits
  split
  · exact List.pairwise_singleton _ _
  · exact .nil
  · exact .nil
  · simp
  · rename_i body
    exact sorted _ (by simp [Node.transitions, body])
  · rename_i body
    exact sorted _ (by simp [Node.transitions, body])
  · exact List.pairwise_singleton _ _

variable {g : Graph} {p : List Node} {s inner last final : State} {v : Visit} {n : Node} {visits : List Visit}
  {undo : Undo} {entries below : List Entry}

theorem before_of_enter (entered : enter g s v n = .ok (visits, undo, inner)) :
    visits.Pairwise fun v w => v.clean = true → w.clean = true → Visit.Before (n :: p) v w := by
  obtain ⟨_, _, _, rfl⟩ := enter_cases entered
  rw [List.pairwise_map]
  refine (pairwise_exits n).imp fun order left right => ?_
  obtain ⟨t, u, first, second, less⟩ := order ((Bool.and_eq_true _ _).mp left).2 ((Bool.and_eq_true _ _).mp right).2
  exact ⟨n, p, t, u, rfl, first, second, less⟩

/-- Clean entries come in the order of their trails: further on the same trail, or on a later one. -/
theorem Walks.ordered (walks : Walks g p s visits entries final)
    (before : visits.Pairwise fun v w => v.clean = true → w.clean = true → Visit.Before p v w) :
    entries.Pairwise fun e e' => e.visit.clean = true → e'.visit.clean = true →
      e.node :: e.trail <:+ e'.trail ∨ Earlier (e.node :: e.trail) (e'.node :: e'.trail) := by
  induction walks with
  | done => exact .nil
  | @visit p s inner last final v visits rest n undo below after found entered inside onward ihInside ihOnward =>
    obtain ⟨first, others⟩ := List.pairwise_cons.mp before
    have apart (q : List Node) (e' : Entry) (member : e' ∈ after) (clean : v.clean = true)
        (clean' : e'.visit.clean = true) : Earlier (q ++ n :: p) (e'.node :: e'.trail) := by
      obtain ⟨w, later, ⟨k, r, target, split⟩, cleanly⟩ := onward.branch e' member
      obtain ⟨m, base, t, u, rfl, left, right, less⟩ := first w later clean (cleanly clean')
      have target' := target_of_resolve found
      rw [left, Option.bind_some] at target'
      rw [right, Option.bind_some] at target
      refine ⟨m, base, n, k, q, r, rfl, split, ?_⟩
      rwa [Graph.name_of_find? target', Graph.name_of_find? target]
    refine List.pairwise_cons.mpr ⟨fun e' member clean clean' => ?_, List.pairwise_append.mpr
      ⟨ihInside (before_of_enter entered), ihOnward others, fun e within e' beyond clean clean' => ?_⟩⟩
    · rcases List.mem_append.mp member with member | member
      · exact .inl (inside.suffix e' member)
      · exact .inr (apart [] e' member clean clean')
    · obtain ⟨w, later, _, cleanly⟩ := inside.branch e within
      obtain ⟨q, whole⟩ := inside.suffix e within
      have earlier := apart (e.node :: q) e' beyond (clean_of_later entered later (cleanly clean)) clean'
      rw [List.cons_append, whole] at earlier
      exact .inr earlier

/-! ### Clean entries -/

theorem staysClean_eq (fresh : n.kind = .join → n.name ∉ s.passedJoins) : staysClean s n true = true := by
  by_cases isJoin : n.kind = .join
  · simp [staysClean, isJoin, fresh isJoin]
  · simp [staysClean, isJoin]

/-- A step without an error from a clean entry leads to one, unless it passes a join again. -/
theorem Walks.next_clean (walks : Walks g p s visits entries final) (proper : ∀ e ∈ entries, e.Proper g)
    (single : g.SingleExit) {e : Entry} (member : e ∈ entries) (onward : g.Succeeds e.node n)
    (still : staysClean e.state e.node e.visit.clean = true) :
    ∃ e' ∈ entries, e'.node = n ∧ e'.trail = e.node :: e.trail ∧ e'.visit.clean = true := by
  obtain ⟨going, t, transition, found⟩ := onward
  have inGraph := (proper e member).trail.mem e.node (List.mem_cons_self ..)
  obtain ⟨e', member', trail, visit⟩ :=
    walks.next member ((exit_of_transition single inGraph going).2 transition)
  exact ⟨e', member', (proper e' member').lands (by rw [visit]) found, trail, by rw [visit, still]; rfl⟩

/-- The first trail to a node is entered cleanly: a join on it was not passed on an earlier trail. -/
theorem Accepted.first_clean (accepted : Accepted g entries) (single : g.SingleExit)
    (trail : g.Trail g.Succeeds (n :: p))
    (first : ∀ other, g.Trail g.Succeeds (n :: other) → ¬ Earlier (n :: other) (n :: p)) :
    ∃ e ∈ entries, e.node = n ∧ e.trail = p ∧ e.visit.clean = true := by
  have proper := accepted.proper
  have ⟨_, _, _, walks⟩ := accepted
  induction p generalizing n with
  | nil =>
    cases trail with
    | start first => exact accepted.enters_start first
  | cons m p ih =>
    cases trail with
    | next before onward =>
      have firstM : ∀ other, g.Trail g.Succeeds (m :: other) → ¬ Earlier (m :: other) (m :: p) := by
        rintro other arrival ⟨k, base, t, u, a, b, left, right, less⟩
        exact first (m :: other) (.next arrival onward) ⟨k, base, t, u, n :: a, n :: b, by rw [left, List.cons_append], by
          rw [right, List.cons_append], less⟩
      obtain ⟨e, member, rfl, rfl, clean⟩ := ih before firstM
      have still : staysClean e.state e.node e.visit.clean = true := by
        rw [clean]
        refine staysClean_eq fun isJoin passed => ?_
        rcases walks.passed_before member passed with none | ⟨e₀, earlier, named, _, stillClean⟩
        · cases none
        · have member₀ : e₀ ∈ entries := earlier.subset (List.mem_cons_self ..)
          have clean₀ := staysClean_le stillClean
          have arrival := (proper e₀ member₀).along.clean clean₀ e₀.node
            (target_of_resolve (proper e₀ member₀).found)
          have node : e₀.node = e.node := Graph.eq_of_name_eq (arrival.leads.mem _ (List.mem_cons_self ..))
            (before.leads.mem _ (List.mem_cons_self ..)) named
          have order := (walks.ordered (List.pairwise_singleton ..)).sublist earlier
          rcases (List.pairwise_pair.mp order) clean₀ clean with part | before₀
          · have fresh := (resolve_ok (proper e member).found).2
            rw [(proper e member).position.path] at fresh
            exact fresh (List.mem_map_of_mem (node ▸ part.subset (List.mem_cons_self ..)))
          · rw [node] at before₀ arrival
            exact firstM e₀.trail arrival before₀
      exact walks.next_clean proper single member onward still

/-- Whatever is reached without an error is entered cleanly, on one trail at least. -/
theorem Accepted.clean_entry (accepted : Accepted g entries) (single : g.SingleExit)
    (trail : g.Trail g.Succeeds (n :: p)) : ∃ e ∈ entries, e.node = n ∧ e.visit.clean = true := by
  have proper := accepted.proper
  have ⟨_, _, _, walks⟩ := accepted
  induction p generalizing n with
  | nil =>
    cases trail with
    | start first =>
      obtain ⟨e, member, node, _, clean⟩ := accepted.enters_start first
      exact ⟨e, member, node, clean⟩
  | cons m p ih =>
    cases trail with
    | next before onward =>
      -- Where a join on the way was passed before, the way goes on cleanly from where it was passed first.
      obtain ⟨e, member, rfl, still⟩ : ∃ e ∈ entries, e.node = m ∧
          staysClean e.state e.node e.visit.clean = true := by
        obtain ⟨e, member, rfl, clean⟩ := ih before
        by_cases passed : e.node.kind = .join ∧ e.node.name ∈ e.state.passedJoins
        · rcases walks.passed_before member passed.2 with none | ⟨e₀, earlier, named, _, still⟩
          · cases none
          · have member₀ : e₀ ∈ entries := earlier.subset (List.mem_cons_self ..)
            have known := (proper e₀ member₀).trail.mem _ (List.mem_cons_self ..)
            exact ⟨e₀, member₀, Graph.eq_of_name_eq known (before.leads.mem _ (List.mem_cons_self ..)) named, still⟩
        · refine ⟨e, member, rfl, ?_⟩
          rw [clean]
          exact staysClean_eq fun isJoin again => passed ⟨isJoin, again⟩
      obtain ⟨e', member', node, _, clean⟩ := walks.next_clean proper single member onward still
      exact ⟨e', member', node, clean⟩

/-- A join that a walk comes to, and that was passed before, was passed in the same walk: the fork that it
    closes there was entered cleanly, so it was not recorded before the walk. -/
theorem Walks.passed_inside (walks : Walks g p s visits entries final)
    (owned : ∀ f h j, g.Closes g.Succeeds f j → g.Closes g.Succeeds h j → f = h) (stage : Stage g p s visits)
    (undecided : firstDecision p = none) {e : Entry} (listed : e ∈ entries) {q : List Node}
    (trail : g.Trail g.Succeeds (e.node :: (q ++ p))) (nested : strayJoins (e.node :: q) = 0)
    (entered : ∀ n ∈ q, ∃ e ∈ entries, e.node = n ∧ e.visit.clean = true) (isJoin : e.node.kind = .join)
    (passed : e.node.name ∈ e.state.passedJoins) :
    ∃ e₀ ∈ entries, e₀.node = e.node ∧ staysClean e₀.state e₀.node e₀.visit.clean = true := by
  have known := trail.leads.mem e.node (List.mem_cons_self ..)
  rcases walks.passed_before listed passed with old | ⟨e₀, sooner, named, _, still⟩
  · obtain ⟨f, j, closes, named, recorded⟩ := stage.ledger.owners _ old
    have node : j = e.node := by
      obtain ⟨r, base, arrival, _⟩ := closes
      exact Graph.eq_of_name_eq (arrival.leads.mem j (by simp)) known named
    have some : openForks q ≠ [] := fun none => by
      rw [strayJoins_join isJoin, if_pos none] at nested
      omega
    obtain ⟨h, rest, opened⟩ := List.exists_cons_of_ne_nil some
    rw [← List.nil_append (h :: rest)] at opened
    obtain ⟨r, base, rfl, isFork, shut, closed, _⟩ := openForks_split opened
    have own : g.Closes g.Succeeds h e.node := ⟨r, base ++ p, by simpa using trail, isFork, isJoin, shut, closed⟩
    obtain rfl := owned f h e.node (node ▸ closes) own
    obtain ⟨e₁, listed₁, rfl, clean₁⟩ := entered f (by simp)
    exact absurd recorded (walks.fresh stage undecided e₁ listed₁ clean₁ (by simp [runsOnce, isFork]))
  · have listed₀ : e₀ ∈ entries := sooner.subset (List.mem_cons_self ..)
    have proper := walks.proper stage.position stage.along e₀ listed₀
    exact ⟨e₀, listed₀, Graph.eq_of_name_eq (proper.trail.mem _ (by simp)) known named, still⟩

/-- From a target of a fork, every node before the fork is closed is entered cleanly. -/
theorem Walks.cleanly (walks : Walks g p s [v] entries final) (single : g.SingleExit)
    (owned : ∀ f h j, g.Closes g.Succeeds f j → g.Closes g.Succeeds h j → f = h) (stage : Stage g p s [v])
    (undecided : firstDecision p = none) (clean : v.clean = true) {t : Node}
    (target : v.target.bind g.find? = some t) {q : List Node} (trail : g.Trail g.Succeeds (q ++ p))
    (first : q.getLast? = some t) (inside : strayJoins q = 0) :
    ∀ n ∈ q, ∃ e ∈ entries, e.node = n ∧ e.visit.clean = true := by
  have proper := walks.proper stage.position stage.along
  induction q with
  | nil => cases first
  | cons y q ih =>
    cases q with
    | nil =>
      intro n member
      rw [List.mem_singleton.mp member]
      obtain ⟨e, listed, node, _, visit⟩ := walks.enters_target proper (List.mem_cons_self ..) target
      rw [List.getLast?_singleton] at first
      exact ⟨e, listed, node.trans (Option.some.inj first).symm, by rw [visit, clean]⟩
    | cons z q =>
      have nested : strayJoins (z :: q) = 0 := by
        rw [strayJoins] at inside
        split at inside
        · omega
        · exact inside
      cases trail with
      | next before onward =>
        have earlier := ih before (by rw [← first, List.getLast?_cons_cons]) nested
        -- Where the way goes on from a join, it goes on cleanly from the first entry of that join.
        obtain ⟨e₀, listed₀, rfl, still₀⟩ : ∃ e₀ ∈ entries, e₀.node = z ∧
            staysClean e₀.state e₀.node e₀.visit.clean = true := by
          obtain ⟨e, listed, rfl, cleanE⟩ := earlier z (List.mem_cons_self ..)
          by_cases passed : e.node.kind = .join ∧ e.node.name ∈ e.state.passedJoins
          · exact walks.passed_inside owned stage undecided listed before nested
              (fun n member => earlier n (List.mem_cons_of_mem _ member)) passed.1 passed.2
          · refine ⟨e, listed, rfl, ?_⟩
            rw [cleanE]
            exact staysClean_eq fun isJoin again => passed ⟨isJoin, again⟩
        obtain ⟨e', listed', node, _, clean'⟩ := walks.next_clean proper single listed₀ onward still₀
        intro n member
        rcases List.mem_cons.mp member with rfl | member
        · exact ⟨e', listed', node, clean'⟩
        · exact earlier n member

/-- A clean visit begins a way to a node on which what was open before stays open. -/
def Visit.Reaches (g : Graph) (p : List Node) (v : Visit) (x : Node) : Prop :=
  v.clean = true ∧ ∃ t q, v.target.bind g.find? = some t ∧ g.Trail g.Succeeds (q ++ p) ∧ q.getLast? = some t ∧
    strayJoins q = 0 ∧ x ∈ q

/-- Two visits of a walk from a trail without decisions do not both lead to one node that may run once only. -/
theorem Walks.apart {before between after : List Visit} {v w : Visit}
    (walks : Walks g p s (before ++ ([v] ++ (between ++ ([w] ++ after)))) entries final) (single : g.SingleExit)
    (owned : ∀ f h j, g.Closes g.Succeeds f j → g.Closes g.Succeeds h j → f = h)
    (stage : Stage g p s (before ++ ([v] ++ (between ++ ([w] ++ after))))) (undecided : firstDecision p = none)
    {x : Node} (once : runsOnce x = true) (left : v.Reaches g p x) (right : w.Reaches g p x) : False := by
  obtain ⟨_, _, _, _, walks, stage⟩ := walks.divide stage
  obtain ⟨_, _, _, walksV, rest, stageRest⟩ := walks.divide stage
  obtain ⟨_, _, _, between, walks, stageW⟩ := rest.divide stageRest
  obtain ⟨_, _, _, walksW, _, _⟩ := walks.divide stageW
  have stageV : Stage g p _ [v] := stage.sub (by simp)
  have stageW : Stage g p _ [w] := stageW.sub (by simp)
  obtain ⟨cleanV, t, q, target, trail, first, inside, member⟩ := left
  obtain ⟨e, listed, rfl, clean⟩ := walksV.cleanly single owned stageV undecided cleanV target trail first inside x member
  obtain ⟨cleanW, u, r, target, trail, first, inside, member⟩ := right
  obtain ⟨e', listed', node, clean'⟩ :=
    walksW.cleanly single owned stageW undecided cleanW target trail first inside e.node member
  have recorded := (walksV.recorded e listed clean once).mono between.grows.1
  exact walksW.fresh stageW undecided e' listed' clean' (by rw [node, once]) (by rw [node]; exact recorded)

theorem reaches_of_branch {f t x : Node} (entered : enter g s v f = .ok (visits, undo, inner))
    (single : g.SingleExit) (clean : v.clean = true) (isFork : f.kind = .fork)
    (arrival : g.Trail g.Succeeds (f :: p)) (branch : g.Branch f t x) :
    ∃ w ∈ visits, w.target.bind g.find? = some t ∧ w.Reaches g (f :: p) x := by
  obtain ⟨q, base, trail, last, first, inside⟩ := branch
  have whole := trail.splice arrival
  obtain ⟨q', rfl⟩ := List.getLast?_eq_some_iff.mp first
  rw [List.append_assoc, List.singleton_append] at whole
  cases whole.before with
  | next _ onward =>
    obtain ⟨going, name, transition, found⟩ := onward
    have leaves := (exit_of_transition single (arrival.leads.mem f (List.mem_cons_self ..)) going).2 transition
    obtain ⟨_, _, _, rfl⟩ := enter_cases entered
    have still : staysClean s f v.clean = true := by
      rw [clean]
      exact staysClean_eq fun isJoin => by rw [isFork] at isJoin; cases isJoin
    refine ⟨_, List.mem_map_of_mem leaves, found, by simp [still], t, _, found, trail.splice arrival, first, inside, ?_⟩
    exact List.mem_of_mem_head? last

theorem firstDecision_eq_none (plain : ∀ n ∈ p, n.kind ≠ .decision) : firstDecision p = none := by
  induction p with
  | nil => rfl
  | cons n p ih =>
    rw [firstDecision, decisionAfter, if_neg (plain n (List.mem_cons_self ..))]
    exact ih fun m member => plain m (List.mem_cons_of_mem _ member)

theorem stage_start {s : Node} (first : g.start? = some s) : Stage g [] {} [⟨some s.name, true, none⟩] := by
  refine ⟨at_start, continues_start first, ⟨?_, ?_⟩, ?_⟩
  · intro name d recorded
    cases recorded
  · intro name member
    cases member
  · intro v _ _ n member
    cases member

/-- Below a clean entry on a trail without decisions, no node runs twice. -/
theorem Accepted.branches_apart (accepted : Accepted g entries) (single : g.SingleExit)
    (owned : ∀ f h j, g.Closes g.Succeeds f j → g.Closes g.Succeeds h j → f = h) {e : Entry} (member : e ∈ entries)
    (clean : e.visit.clean = true) (undecided : firstDecision e.trail = none) (x : Node) :
    ¬ g.RunsTwice e.node x := by
  rintro ⟨isFork, notJoin, notKill, notEnd, t, u, different, left, right⟩
  have proper := accepted.proper e member
  have arrival := proper.along.clean clean e.node (target_of_resolve proper.found)
  obtain ⟨s, final, start, walks⟩ := accepted
  obtain ⟨visits, undo, inner, below, last, entered, inside, _⟩ := walks.inside member
  have stage := ((walks.stage (stage_start start)).2 e member).enter proper.found entered
  have once : runsOnce x = true := by simp [runsOnce, notJoin, notKill, notEnd]
  have none : firstDecision (e.node :: e.trail) = none := by
    rw [firstDecision, decisionAfter, if_neg (by simp [isFork]), undecided]
  obtain ⟨v, listedV, targetV, reachesV⟩ := reaches_of_branch entered single clean isFork arrival left
  obtain ⟨w, listedW, targetW, reachesW⟩ := reaches_of_branch entered single clean isFork arrival right
  have apart : w ≠ v := by
    rintro rfl
    exact different (Option.some.inj (targetV.symm.trans targetW))
  obtain ⟨before, after, rfl⟩ := List.append_of_mem listedV
  rcases List.mem_append.mp listedW with sooner | later
  · obtain ⟨before, between, rfl⟩ := List.append_of_mem sooner
    rw [List.append_assoc, List.cons_append, ← List.singleton_append, ← List.singleton_append (x := v)] at inside stage
    exact inside.apart single owned stage none once reachesW reachesV
  · obtain ⟨between, after, rfl⟩ := List.append_of_mem ((List.mem_cons.mp later).resolve_left apart)
    exact inside.apart single owned stage none once reachesV reachesW

end ForkJoin

/-- In an accepted graph in which each join closes one fork, no node runs twice below a fork that is
    first reached without a decision. -/
theorem Graph.not_runsTwice {g : Graph} {r : Registry} {report : StructureReport} (single : g.SingleExit)
    (checked : g.checkStructure r = .ok report) (passed : g.checkForkJoin report = .ok ())
    (owned : ∀ f h j, g.Closes g.Succeeds f j → g.Closes g.Succeeds h j → f = h) {f : Node} {p : List Node}
    (arrival : g.Trail g.Succeeds (f :: p))
    (first : ∀ other, g.Trail g.Succeeds (f :: other) → ¬ Earlier (f :: other) (f :: p))
    (undecided : ∀ n ∈ p, n.kind ≠ .decision) (x : Node) : ¬ g.RunsTwice f x := by
  intro twice
  rcases (ForkJoin.accepted_of_check checked passed).2 with plain | ⟨entries, accepted⟩
  · exact (plain f (arrival.leads.reachable f (List.mem_cons_self ..))).1 twice.1
  · obtain ⟨e, member, rfl, rfl, clean⟩ := accepted.first_clean single arrival first
    exact accepted.branches_apart single owned member clean (ForkJoin.firstDecision_eq_none undecided) x twice

theorem Graph.not_runsTwice_nestedForks :
    (∀ f h j, nestedForks.Closes nestedForks.Succeeds f j → nestedForks.Closes nestedForks.Succeeds h j → f = h) ∧
    ∀ x, ¬ nestedForks.RunsTwice ⟨"split", .fork ["left", "inner"]⟩ x := by
  have paired : nestedForks.Paired := paired_of_closed singleExit_nestedForks checkStructure_nestedForks
    checkForkJoin_nestedForks resumes_nestedForks closed_nestedForks
  have owned : ∀ f h j, nestedForks.Closes nestedForks.Succeeds f j →
      nestedForks.Closes nestedForks.Succeeds h j → f = h :=
    fun f h j left right => paired.fork_unique f h j left.leads right.leads
  refine ⟨owned, fun x => not_runsTwice singleExit_nestedForks checkStructure_nestedForks checkForkJoin_nestedForks
    owned (p := [⟨startName, .start ["split"]⟩]) (by decide) ?_ (by decide) x⟩
  rintro other _ ⟨m, base, t, u, a, b, _, right, less⟩
  obtain ⟨isFork, isStart⟩ : u.name = "split" ∧ m.transitions = ["split"] := by
    rcases b with - | ⟨_, - | ⟨_, b⟩⟩
    · obtain ⟨rfl, same⟩ := List.cons.inj right
      obtain ⟨rfl, _⟩ := List.cons.inj same
      exact ⟨rfl, rfl⟩
    · simp at right
    · simp at right
  rw [isFork, isStart] at less
  simp at less

/-- A decision that leads past a fork, and two branches of the fork that meet in an action. -/
def Graph.decidedFirst : Graph where
  name := "decided"
  nodes :=
    [⟨startName, .start ["choose"]⟩, ⟨"choose", .decision "<switch/>" ["split", "done"]⟩,
      ⟨"split", .fork ["left", "right"]⟩, ⟨"left", .action "both" "stop" { conf := "<shell/>" }⟩,
      ⟨"right", .action "both" "stop" { conf := "<shell/>" }⟩, ⟨"both", .action "close" "stop" { conf := "<shell/>" }⟩,
      ⟨"close", .join ["done"]⟩, ⟨"stop", .kill none []⟩, ⟨"done", .finish []⟩]
  distinct := by decide

theorem Graph.checkStructure_decidedFirst :
    decidedFirst.checkStructure (Registry.withBuiltins []) = .ok ⟨["split"], ["close"], 9⟩ := by
  have passes : ∀ n ∈ decidedFirst.nodes, Structure.checkNode (Registry.withBuiltins []) n = .ok () :=
    Structure.checkNode_of_isOk (by decide +kernel)
  simp only [decidedFirst, startName, List.forall_mem_cons] at passes
  simp [Graph.checkStructure, Graph.start, Graph.start?, decidedFirst, Node.kind, passes, Structure.walk_nil,
    Structure.walk_leave, Structure.walk_follow, Structure.Walk.enter, Structure.isTerminal, Graph.find?,
    Structure.StructureReport.addNode, Node.transitions, startName]

/-- Both branches run after the decision, and both run the action. -/
theorem Graph.runsTwice_decidedFirst :
    decidedFirst.SingleExit ∧
    decidedFirst.checkStructure (Registry.withBuiltins []) = .ok ⟨["split"], ["close"], 9⟩ ∧
    decidedFirst.checkForkJoin ⟨["split"], ["close"], 9⟩ = .ok () ∧
    decidedFirst.RunsTwice ⟨"split", .fork ["left", "right"]⟩
      ⟨"both", .action "close" "stop" { conf := "<shell/>" }⟩ := by
  refine ⟨by decide, checkStructure_decidedFirst, by decide +kernel, rfl, by decide, by decide, by decide,
    ⟨"left", .action "both" "stop" { conf := "<shell/>" }⟩, ⟨"right", .action "both" "stop" { conf := "<shell/>" }⟩,
    by decide, ?_, ?_⟩
  · exact ⟨[⟨"both", .action "close" "stop" { conf := "<shell/>" }⟩,
      ⟨"left", .action "both" "stop" { conf := "<shell/>" }⟩],
      [⟨"choose", .decision "<switch/>" ["split", "done"]⟩, ⟨startName, .start ["choose"]⟩], by decide, rfl, rfl, by decide⟩
  · exact ⟨[⟨"both", .action "close" "stop" { conf := "<shell/>" }⟩,
      ⟨"right", .action "both" "stop" { conf := "<shell/>" }⟩],
      [⟨"choose", .decision "<switch/>" ["split", "done"]⟩, ⟨startName, .start ["choose"]⟩], by decide, rfl, rfl, by decide⟩

/-- Two forks that one join closes, below a fork that comes first; each has a join of its own besides. -/
def Graph.sharedJoin : Graph where
  name := "shared"
  nodes :=
    [⟨startName, .start ["split"]⟩, ⟨"split", .fork ["left", "right"]⟩, ⟨"left", .fork ["both", "near"]⟩,
      ⟨"right", .fork ["both", "far"]⟩, ⟨"both", .join ["after"]⟩, ⟨"near", .join ["stop"]⟩, ⟨"far", .join ["stop"]⟩,
      ⟨"after", .decision "<switch/>" ["stop"]⟩, ⟨"stop", .kill none []⟩]
  distinct := by decide

/-- Where no decision is on the way, one join of two forks is enough: what comes after it is walked cleanly
    once only. -/
theorem Graph.runsTwice_sharedJoin :
    sharedJoin.SingleExit ∧
    sharedJoin.checkStructure (Registry.withBuiltins []) =
      .ok ⟨["split", "left", "right"], ["both", "near", "far"], 9⟩ ∧
    sharedJoin.checkForkJoin ⟨["split", "left", "right"], ["both", "near", "far"], 9⟩ = .ok () ∧
    (∀ p, sharedJoin.Trail sharedJoin.Succeeds (⟨"split", .fork ["left", "right"]⟩ :: p) →
      ∀ n ∈ p, n.kind ≠ .decision) ∧
    sharedJoin.RunsTwice ⟨"split", .fork ["left", "right"]⟩ ⟨"after", .decision "<switch/>" ["stop"]⟩ := by
  refine ⟨by decide, checkStructure_of_turns rfl rfl (k := 40) (by decide +kernel), by decide +kernel, fun p arrival => ?_, rfl, by decide, by decide, by decide,
    ⟨"left", .fork ["both", "near"]⟩, ⟨"right", .fork ["both", "far"]⟩, by decide, ?_, ?_⟩
  · have fromStart : ∀ m ∈ sharedJoin.nodes, sharedJoin.Succeeds m ⟨"split", .fork ["left", "right"]⟩ →
        m = ⟨startName, .start ["split"]⟩ := by decide
    have noneBefore : ∀ m ∈ sharedJoin.nodes, ¬ sharedJoin.Succeeds m ⟨startName, .start ["split"]⟩ := by decide
    cases arrival with
    | start first => simp
    | @next m _ p before onward =>
      obtain rfl := fromStart m (before.leads.mem m (List.mem_cons_self ..)) onward
      cases before with
      | start _ => simp [Node.kind]
      | next before onward => exact absurd onward (noneBefore _ (before.leads.mem _ (List.mem_cons_self ..)))
  · exact ⟨[⟨"after", .decision "<switch/>" ["stop"]⟩, ⟨"both", .join ["after"]⟩, ⟨"left", .fork ["both", "near"]⟩],
      [⟨startName, .start ["split"]⟩], by decide, rfl, rfl, by decide⟩
  · exact ⟨[⟨"after", .decision "<switch/>" ["stop"]⟩, ⟨"both", .join ["after"]⟩, ⟨"right", .fork ["both", "far"]⟩],
      [⟨startName, .start ["split"]⟩], by decide, rfl, rfl, by decide⟩

end WorkflowCompiler
