import WorkflowCompiler.Proofs.ForkJoin.Exclusion
import WorkflowCompiler.Proofs.ForkJoin.Parting

/-!
A well-forked graph passes the check of forks and joins, where all open forks can be
closed; with the converse, `Graph.checkForkJoin_iff`. The walk is followed with a log
of the trails that it has left cleanly, which the marks and the passed joins of its
state come from (`Logged`), and each join that it remembers closes a fork that is open
(`Standing`). Two clean visits of one node come on two trails of the log, which pass
no join on two ways, so their first decisions agree.
-/
namespace WorkflowCompiler
namespace ForkJoin

/-! ### The log of a walk -/

/-- What the state of a walk has of the trails that were left cleanly. -/
structure Logged (g : Graph) (log : Set (List Node)) (s : State) : Prop where
  trail : ∀ q ∈ log, g.Trail g.Succeeds q
  tail : ∀ n m q, n :: m :: q ∈ log → m :: q ∈ log
  /-- A node is recorded with the first decision of a trail to it. -/
  marks : ∀ name d, s.cleanVisits.lookup name = some d → ∃ n q, n :: q ∈ log ∧ n.name = name ∧ firstDecision q = d
  passed : ∀ j q, j :: q ∈ log → j.kind = .join → j.name ∈ s.passedJoins
  /-- A join is passed on one trail only. -/
  once : ∀ j q t, j.kind = .join → j :: q ∈ log → j :: t ∈ log → q = t

/-- A join and the fork that it closes, by their names. -/
def Owns (g : Graph) (join fork : String) : Prop :=
  ∃ f j, g.Closes g.Leads f j ∧ j.name = join ∧ f.name = fork

/-- Where a walk stands that cannot stop. -/
structure Standing (g : Graph) (log : Set (List Node)) (p : List Node) (s : State) (visits : List Visit) : Prop where
  position : At s p
  logged : Logged g log s
  /-- The joins belong to open forks, in the same order. -/
  owned : List.SublistForall₂ (Owns g) s.joins s.forks
  along : ∀ v ∈ visits, v.Continues g p
  arrives : ∀ v ∈ visits, ∃ n, v.target.bind g.find? = some n
  cleanly : ∀ v ∈ visits, v.clean = true → p = [] ∨ p ∈ log
  fresh : ∀ v ∈ visits, v.clean = true → ∀ n, v.target.bind g.find? = some n → n :: p ∉ log
  apart : visits.Pairwise fun v w => v.clean = true → w.clean = true → v.target ≠ w.target

/-- The log after a node, which is left cleanly or not. -/
def logAfter (log : Set (List Node)) (s : State) (p : List Node) (v : Visit) (n : Node) : Set (List Node) :=
  {q | q ∈ log ∨ staysClean s n v.clean = true ∧ q = n :: p}

variable {g : Graph} {r : Registry} {log : Set (List Node)} {p : List Node} {s inner last final : State} {v : Visit}
  {n : Node} {visits rest : List Visit} {undo : Undo} {entries below : List Entry} {fault : Fault}

theorem Logged.suffix (logged : Logged g log s) {q t : List Node} (member : q ∈ log) (part : t <:+ q) (some : t ≠ []) :
    t ∈ log := by
  induction q with
  | nil => exact absurd (List.suffix_nil.mp part) some
  | cons n q ih =>
    rcases List.suffix_cons_iff.mp part with rfl | part
    · exact member
    · cases q with
      | nil => exact absurd (List.suffix_nil.mp part) some
      | cons m q => exact ih (logged.tail n m q member) part

theorem Logged.congr {after : State} (logged : Logged g log s) (marks : after.cleanVisits = s.cleanVisits)
    (joins : after.passedJoins = s.passedJoins) : Logged g log after where
  trail := logged.trail
  tail := logged.tail
  marks := by rw [marks]; exact logged.marks
  passed := by rw [joins]; exact logged.passed
  once := logged.once

/-! ### Nodes can be entered -/

/-- What keeps a walk from stopping at a node. -/
theorem enter_succeeds
    (unmarked : v.clean = true → runsOnce n = true → ∀ d, s.cleanVisits.lookup n.name = some d → v.decision = d ∧ d ≠ none)
    (targets : n.kind = .fork → repeatedTarget? g n.transitions = none)
    (expected : n.kind = .join → s.forks ≠ [] ∧ (s.expectJoin n.name).head? = some n.name)
    (ends : n.kind = .finish → s.forks = []) : ∃ visits undo inner, enter g s v n = .ok (visits, undo, inner) := by
  have followed (marks : List (String × Option String)) : ∃ visits undo inner,
      follow g { s with path := n.name :: s.path, cleanVisits := marks } n v.clean v.decision =
        .ok (visits, undo, inner) := by
    cases body : n.body with
    | fork names =>
      have none := targets (by simp [Node.kind, body])
      simp only [Node.transitions, body] at none
      simp [follow, body, none]
    | join names =>
      obtain ⟨some, top⟩ := expected (by simp [Node.kind, body])
      simp only [follow, body]
      split
      · rename_i none
        exact absurd none some
      · split
        · rename_i other
          exact absurd top other
        · exact ⟨_, _, _, rfl⟩
    | finish names =>
      have none := ends (by simp [Node.kind, body])
      simp [follow, body, none]
    | _ => simp [follow, body]
  unfold enter
  dsimp only
  split
  · rename_i counts
    obtain ⟨clean, once⟩ := (Bool.and_eq_true _ _).mp counts
    unfold State.recordVisit
    cases marked : s.cleanVisits.lookup n.name with
    | none => exact followed _
    | some d =>
      obtain ⟨same, decided⟩ := unmarked clean once d marked
      have agree : ¬ (d = none ∨ v.decision = none ∨ d ≠ v.decision) := by simp [same, decided]
      simp only [if_neg agree]
      exact followed _
  · exact followed _

theorem sublistForall₂_tail {R : String → String → Prop} {joins forks : List String}
    (owned : List.SublistForall₂ R joins forks) : List.SublistForall₂ R joins.tail forks := by
  induction owned with
  | nil => exact .nil
  | cons _ others => exact .cons_right others
  | cons_right _ ih => exact .cons_right ih

theorem length_le_of_sublistForall₂ {R : String → String → Prop} {joins forks : List String}
    (owned : List.SublistForall₂ R joins forks) : joins.length ≤ forks.length := by
  obtain ⟨l, same, sub⟩ := List.sublistForall₂_iff.mp owned
  exact same.length_eq ▸ sub.length_le

/-- Where the innermost fork can have one join only, that join is expected. -/
theorem expectJoin_owned {R : String → String → Prop} {f name : String} {outer : List String}
    (opened : s.forks = f :: outer) (owned : List.SublistForall₂ R s.joins s.forks)
    (unique : ∀ j, R j f → j = name) : (s.expectJoin name).head? = some name ∧
      List.SublistForall₂ R (s.expectJoin name).tail outer := by
  unfold State.expectJoin
  rw [opened] at owned ⊢
  generalize s.joins = joins at owned ⊢
  cases owned with
  | nil => simp [List.SublistForall₂.nil]
  | cons own others =>
    obtain rfl := unique _ own
    simpa using others
  | cons_right others =>
    have few := length_le_of_sublistForall₂ others
    split
    · exact ⟨rfl, others⟩
    · rename_i settled
      rw [List.length_cons, not_and, not_not] at settled
      exact ⟨settled (Nat.lt_succ_of_le few), sublistForall₂_tail others⟩

/-- A join closes the fork that is open before it. -/
theorem owns_of_trail (position : At s p) (trail : g.Trail g.Leads (n :: p)) (isJoin : n.kind = .join) {f : String}
    {outer : List String} (opened : s.forks = f :: outer) : Owns g n.name f := by
  have forks := position.forks
  rw [opened] at forks
  obtain ⟨h, others, split, rfl, _⟩ := List.map_eq_cons_iff.mp forks.symm
  have innermost : openForks p = [] ++ h :: others := split
  have whole : g.Trail g.Leads (n :: [] ++ p) := trail
  exact ⟨h, n, Graph.closes_of_stray whole isJoin rfl innermost rfl, rfl, rfl⟩

/-- Where no fork is closed by two joins, a join that closes a fork is its only owner. -/
theorem Owns.unique (unique : ∀ f j k, g.Closes g.Leads f j → g.Closes g.Leads f k → j = k) {f j k : String}
    (left : Owns g j f) (right : Owns g k f) : j = k := by
  obtain ⟨h, i, closes, rfl, rfl⟩ := left
  obtain ⟨h', i', closes', rfl, named⟩ := right
  have same : h' = h := Graph.eq_of_name_eq closes'.reachable.1.mem closes.reachable.1.mem named
  rw [unique h i i' closes (same ▸ closes')]

theorem Standing.arriving (standing : Standing g log p s visits) : Arriving g p s visits :=
  ⟨⟨standing.position, standing.along⟩, standing.arrives⟩

/-- A clean visit of a node that was recorded shares the first decision with it. -/
theorem Standing.agrees (standing : Standing g log p s (v :: rest)) (single : g.SingleExit)
    (wellFormed : g.WellFormed r) (closable : g.Closable) (well : g.WellForked)
    (target : v.target.bind g.find? = some n) (clean : v.clean = true) (once : runsOnce n = true)
    {d : Option String} (marked : s.cleanVisits.lookup n.name = some d) : v.decision = d ∧ d ≠ none := by
  have here := standing.along v (List.mem_cons_self ..)
  have trail := here.clean clean n target
  have logged := standing.logged
  obtain ⟨m, q, member, named, rfl⟩ := logged.marks _ _ marked
  have trail' := logged.trail _ member
  obtain rfl : m = n := Graph.eq_of_name_eq (trail'.leads.mem m (List.mem_cons_self ..))
    (trail.leads.mem n (List.mem_cons_self ..)) named
  rw [here.decision]
  refine well.shared_decision single wellFormed closable once trail trail' ?_ ?_
  · rintro rfl
    exact standing.fresh v (List.mem_cons_self ..) clean m target member
  · intro j a b isJoin left right
    have known : p ∈ log := by
      rcases standing.cleanly v (List.mem_cons_self ..) clean with none | known
      · rw [none] at left
        exact absurd (List.suffix_nil.mp left) (List.cons_ne_nil _ _)
      · exact known
    exact logged.once j a b isJoin (logged.suffix known left (List.cons_ne_nil _ _))
      (logged.suffix member (right.trans (List.suffix_cons m q)) (List.cons_ne_nil _ _))

theorem Standing.enters (standing : Standing g log p s (v :: rest)) (single : g.SingleExit)
    (wellFormed : g.WellFormed r) (closable : g.Closable) (well : g.WellForked) (found : resolve g s v = .ok n) :
    ∃ visits undo inner, enter g s v n = .ok (visits, undo, inner) := by
  have target := target_of_resolve found
  have trail := (standing.along v (List.mem_cons_self ..)).leads n target
  have position := standing.position
  refine enter_succeeds ?_ ?_ ?_ ?_
  · exact fun clean once d marked => standing.agrees single wellFormed closable well target clean once marked
  · exact fun isFork => repeatedTarget?_eq_none_iff.mpr
      (well.targets n (trail.reachable n (List.mem_cons_self ..)) isFork)
  · intro isJoin
    have some : s.forks ≠ [] := by
      intro none
      rw [position.forks, List.map_eq_nil_iff] at none
      have stray := well.nested n p trail
      rw [strayJoins_join isJoin, if_pos none] at stray
      omega
    obtain ⟨f, outer, opened⟩ := List.exists_cons_of_ne_nil some
    have own := owns_of_trail position trail isJoin opened
    exact ⟨some, (expectJoin_owned opened standing.owned fun _ other => other.unique well.paired.join_unique own).1⟩
  · intro ends
    have outside := well.outside n p trail ends
    rw [openForks_plain (by simp [ends]) (by simp [ends])] at outside
    rw [position.forks, outside, List.map_nil]

/-! ### What entering and leaving keeps -/

theorem not_passed (isJoin : n.kind = .join) (still : staysClean s n v.clean = true) : n.name ∉ s.passedJoins := by
  simp only [staysClean, isJoin, beq_self_eq_true, Bool.true_and, Bool.and_eq_true, Bool.not_eq_true',
    decide_eq_false_iff_not] at still
  exact still.2

theorem passed_of_enter (entered : enter g s v n = .ok (visits, undo, inner)) (isJoin : n.kind = .join)
    (still : staysClean s n v.clean = true) : n.name ∈ inner.passedJoins := by
  obtain ⟨marks, _, shifts, _⟩ := enter_cases entered
  cases shifts with
  | plain _ notJoin _ => exact absurd isJoin notJoin
  | fork isFork => rw [isFork] at isJoin; cases isJoin
  | join _ _ _ =>
    have same : staysClean { s with path := n.name :: s.path, cleanVisits := marks } n v.clean = true := still
    dsimp only
    rw [if_pos same]
    exact List.mem_cons_self ..

theorem clean_of_visits (entered : enter g s v n = .ok (visits, undo, inner)) {w : Visit} (later : w ∈ visits)
    (clean : w.clean = true) : staysClean s n v.clean = true := by
  obtain ⟨_, _, _, rfl⟩ := enter_cases entered
  obtain ⟨exit, _, rfl⟩ := List.mem_map.mp later
  exact ((Bool.and_eq_true _ _).mp clean).1

theorem Standing.logged_enter (standing : Standing g log p s (v :: rest)) (found : resolve g s v = .ok n)
    (entered : enter g s v n = .ok (visits, undo, inner)) : Logged g (logAfter log s p v n) inner := by
  have target := target_of_resolve found
  have here := standing.along v (List.mem_cons_self ..)
  have logged := standing.logged
  have grows := grows_enter entered
  refine ⟨?_, ?_, ?_, ?_, ?_⟩
  · rintro q (member | ⟨still, rfl⟩)
    · exact logged.trail q member
    · exact here.clean (staysClean_le still) n target
  · rintro x m q (member | ⟨still, same⟩)
    · exact .inl (logged.tail x m q member)
    · obtain ⟨rfl, rfl⟩ := List.cons.inj same
      rcases standing.cleanly v (List.mem_cons_self ..) (staysClean_le still) with none | known
      · cases none
      · exact .inl known
  · intro name d recorded
    have marked := (enter_records entered).1
    have old (before : s.cleanVisits.lookup name = some d) :
        ∃ m q, m :: q ∈ logAfter log s p v n ∧ m.name = name ∧ firstDecision q = d := by
      obtain ⟨m, q, member, facts⟩ := logged.marks name d before
      exact ⟨m, q, .inl member, facts⟩
    generalize inner.cleanVisits = marks at marked recorded
    cases marked with
    | skipped _ => exact old recorded
    | again _ _ _ _ => exact old recorded
    | first clean once _ =>
      rw [List.lookup_cons] at recorded
      split at recorded
      · rename_i same
        have notJoin : n.kind ≠ .join := by simp_all [runsOnce]
        have still : staysClean s n v.clean = true := by
          rw [clean]
          exact staysClean_eq fun isJoin => absurd isJoin notJoin
        exact ⟨n, p, .inr ⟨still, rfl⟩, (beq_iff_eq.mp same).symm, by rw [← here.decision, Option.some.inj recorded]⟩
      · exact old recorded
  · rintro j q (member | ⟨still, same⟩) isJoin
    · exact grows.joins (logged.passed j q member isJoin)
    · obtain ⟨rfl, rfl⟩ := List.cons.inj same
      exact passed_of_enter entered isJoin still
  · rintro j q t isJoin (left | ⟨still, same⟩) (right | ⟨still', same'⟩)
    · exact logged.once j q t isJoin left right
    · obtain ⟨rfl, rfl⟩ := List.cons.inj same'
      exact absurd (logged.passed j q left isJoin) (not_passed isJoin still')
    · obtain ⟨rfl, rfl⟩ := List.cons.inj same
      exact absurd (logged.passed j t right isJoin) (not_passed isJoin still)
    · rw [(List.cons.inj same).2, (List.cons.inj same').2]

/-- Where no fork is closed by two joins, entering a node keeps the joins in line with the forks. -/
theorem owned_enter (unique : ∀ f j k, g.Closes g.Leads f j → g.Closes g.Leads f k → j = k) (position : At s p)
    (trail : g.Trail g.Leads (n :: p)) (entered : enter g s v n = .ok (visits, undo, inner))
    (owned : List.SublistForall₂ (Owns g) s.joins s.forks) : List.SublistForall₂ (Owns g) inner.joins inner.forks := by
  obtain ⟨marks, _, shifts, _⟩ := enter_cases entered
  cases shifts with
  | plain _ _ _ => exact owned
  | fork _ => exact owned.cons_right
  | join isJoin opened _ =>
    have own := owns_of_trail position trail isJoin opened
    exact (expectJoin_owned (s := s) opened owned fun _ other => other.unique unique own).2

/-- Leaving a fork or a join keeps the joins in line with the forks. -/
theorem owned_leave (position : At s p) (trail : g.Trail g.Leads (n :: p))
    (entered : enter g s v n = .ok (visits, undo, inner)) (inside : Walks g (n :: p) inner visits below last)
    (owned : List.SublistForall₂ (Owns g) last.joins last.forks) :
    List.SublistForall₂ (Owns g) (last.leave undo).joins (last.leave undo).forks := by
  have kept := inside.forks
  obtain ⟨marks, _, shifts, _⟩ := enter_cases entered
  cases shifts with
  | plain _ _ _ => exact owned
  | fork _ =>
    simp only [State.leave]
    rw [kept] at owned ⊢
    generalize last.joins = joins at owned ⊢
    cases owned with
    | nil => exact .nil
    | cons _ others => exact others
    | cons_right others => exact sublistForall₂_tail others
  | join isJoin opened _ => exact .cons (owns_of_trail position trail isJoin opened) owned

theorem Standing.inside (standing : Standing g log p s (v :: rest)) (single : g.SingleExit)
    (wellFormed : g.WellFormed r) (well : g.WellForked) (found : resolve g s v = .ok n)
    (entered : enter g s v n = .ok (visits, undo, inner)) :
    Standing g (logAfter log s p v n) (n :: p) inner visits := by
  have target := target_of_resolve found
  have arriving := (maintained_arriving single wellFormed).inside standing.arriving found entered
  refine ⟨arriving.position, standing.logged_enter found entered,
    owned_enter well.paired.join_unique standing.position (standing.arriving.trail found) entered standing.owned,
    arriving.continues, arriving.arrives, ?_, ?_, ?_⟩
  · exact fun w later clean => .inr (.inr ⟨clean_of_visits entered later clean, rfl⟩)
  · rintro w later clean m _ (member | ⟨_, same⟩)
    · have before := staysClean_le (clean_of_visits entered later clean)
      exact standing.fresh v (List.mem_cons_self ..) before n target (standing.logged.tail m n p member)
    · have length := congrArg List.length same
      simp at length
  · refine (before_of_enter (p := p) entered).imp fun before left right same => ?_
    obtain ⟨m, base, t, u, _, first, second, less⟩ := before left right
    rw [first, second] at same
    rw [Option.some.inj same] at less
    exact Nat.lt_irrefl _ less

/-- The log grows by what lies beyond the clean visits. -/
def Extends (g : Graph) (log more : Set (List Node)) (p : List Node) (visits : List Visit) : Prop :=
  ∀ q ∈ more, q ∈ log ∨ ∃ v ∈ visits, v.clean = true ∧ ∃ n, v.target.bind g.find? = some n ∧ n :: p <:+ q

theorem Standing.onward {more : Set (List Node)} (standing : Standing g log p s (v :: rest))
    (found : resolve g s v = .ok n) (entered : enter g s v n = .ok (visits, undo, inner))
    (inside : Walks g (n :: p) inner visits below last) (after : Standing g more (n :: p) last [])
    (sub : logAfter log s p v n ⊆ more) (extend : Extends g (logAfter log s p v n) more (n :: p) visits) :
    Standing g more p (last.leave undo) rest := by
  have target := target_of_resolve found
  obtain ⟨marks, joins⟩ := leave_records last undo
  obtain ⟨others, apart⟩ := List.pairwise_cons.mp standing.apart
  refine ⟨at_leave standing.position entered inside, after.logged.congr marks joins,
    owned_leave standing.position (standing.arriving.trail found) entered inside after.owned, ?_, ?_, ?_, ?_, apart⟩
  · exact fun w later => standing.along w (List.mem_cons_of_mem _ later)
  · exact fun w later => standing.arrives w (List.mem_cons_of_mem _ later)
  · exact fun w later clean =>
      (standing.cleanly w (List.mem_cons_of_mem _ later) clean).imp_right fun known => sub (.inl known)
  · intro w later clean m arrives member
    rcases extend _ member with (known | ⟨still, same⟩) | ⟨_, _, _, k, _, part⟩
    · exact standing.fresh w (List.mem_cons_of_mem _ later) clean m arrives known
    · -- Only a visit of the same node could have come along this trail before.
      obtain ⟨rfl, _⟩ := List.cons.inj same
      obtain ⟨t, first, foundT⟩ := Option.bind_eq_some_iff.mp target
      obtain ⟨u, second, foundU⟩ := Option.bind_eq_some_iff.mp arrives
      refine others w later (staysClean_le still) clean ?_
      rw [first, second, ← Graph.name_of_find? foundT, ← Graph.name_of_find? foundU]
    · have length := part.length_le
      simp at length

/-! ### The walk does not stop -/

theorem Walks.standing (walks : Walks g p s visits entries final) (single : g.SingleExit) (wellFormed : g.WellFormed r)
    (well : g.WellForked) (standing : Standing g log p s visits) :
    ∃ more, Standing g more p final [] ∧ log ⊆ more ∧ Extends g log more p visits := by
  induction walks generalizing log with
  | done => exact ⟨log, standing, fun _ member => member, fun _ member => .inl member⟩
  | @visit p s inner last final v visits rest n undo below after found entered inside onward ihInside ihOnward =>
    have target := target_of_resolve found
    obtain ⟨more, stands, sub, extend⟩ := ihInside (standing.inside single wellFormed well found entered)
    obtain ⟨most, ends, sub', extend'⟩ := ihOnward (standing.onward found entered inside stands sub extend)
    refine ⟨most, ends, fun q member => sub' (sub (.inl member)), fun q member => ?_⟩
    rcases extend' q member with member | ⟨w, later, facts⟩
    · rcases extend q member with (member | ⟨still, rfl⟩) | ⟨w, later, clean, m, _, part⟩
      · exact .inl member
      · exact .inr ⟨v, List.mem_cons_self .., staysClean_le still, n, target, List.suffix_refl _⟩
      · have before := staysClean_le (clean_of_visits entered later clean)
        exact .inr ⟨v, List.mem_cons_self .., before, n, target, (List.suffix_cons m (n :: p)).trans part⟩
    · exact .inr ⟨w, List.mem_cons_of_mem _ later, facts⟩

theorem Standing.not_fails (standing : Standing g log p s visits) (single : g.SingleExit)
    (wellFormed : g.WellFormed r) (closable : g.Closable) (well : g.WellForked) : ¬ Fails g p s visits fault := by
  intro fails
  induction fails generalizing log with
  | lost lost =>
    obtain ⟨n, found⟩ := standing.arriving.resolves wellFormed
    rw [found] at lost
    cases lost
  | refused found refused =>
    obtain ⟨visits, undo, inner, entered⟩ := standing.enters single wellFormed closable well found
    rw [entered] at refused
    cases refused
  | inside found entered _ ih => exact ih (standing.inside single wellFormed well found entered)
  | onward found entered inside _ ih =>
    obtain ⟨more, stands, sub, extend⟩ :=
      inside.standing single wellFormed well (standing.inside single wellFormed well found entered)
    exact ih (standing.onward found entered inside stands sub extend)

theorem standing_start {s : Node} (first : g.start? = some s) : Standing g ∅ [] {} [⟨some s.name, true, none⟩] where
  position := at_start
  logged := ⟨fun _ member => member.elim, fun _ _ _ member => member.elim, fun _ _ recorded => (nomatch recorded),
    fun _ _ member => member.elim, fun _ _ _ _ member => member.elim⟩
  owned := .nil
  along := continues_start first
  arrives v member := by
    rw [List.mem_singleton.mp member]
    exact ⟨s, Graph.find?_of_mem (Graph.mem_of_start? first)⟩
  cleanly v member _ := .inl rfl
  fresh v member _ n _ := id
  apart := List.pairwise_singleton ..

end ForkJoin

/-! ### The verdict -/

/-- Where each fork is sent to a join of its own, there are no fewer joins than forks. -/
theorem length_le_of_choice {names others : List String} {R : String → String → Prop} (distinct : names.Nodup)
    (choice : ∀ a ∈ names, ∃ b ∈ others, R a b) (apart : ∀ a a' b, R a b → R a' b → a = a') :
    names.length ≤ others.length := by
  choose! c into related using choice
  have images : (names.map c).Nodup := by
    refine distinct.map_on fun a left a' right same => ?_
    exact apart a a' (c a) (related a left) (same ▸ related a' right)
  have sub : names.map c ⊆ others := by
    intro b member
    obtain ⟨a, listed, rfl⟩ := List.mem_map.mp member
    exact into a listed
  rw [← List.length_map c]
  exact (List.subperm_of_subset images sub).length_le

/-- In pairs, there are as many forks as joins. -/
theorem Graph.WellForked.same_length {g : Graph} {report : StructureReport} (well : g.WellForked)
    (closed : ∀ f, g.Reachable f → f.kind = .fork → ∃ j, g.Closes g.Leads f j)
    (forks : report.forks.Nodup ∧ ∀ name, name ∈ report.forks ↔ ∃ n, g.Reachable n ∧ n.kind = .fork ∧ n.name = name)
    (joins : report.joins.Nodup ∧ ∀ name, name ∈ report.joins ↔ ∃ n, g.Reachable n ∧ n.kind = .join ∧ n.name = name) :
    report.forks.length = report.joins.length := by
  have same {m n : Node} (left : g.Reachable m) (right : g.Reachable n) (named : m.name = n.name) : m = n :=
    Graph.eq_of_name_eq left.mem right.mem named
  have isJoin {f j : Node} (closes : g.Closes g.Leads f j) : j.kind = .join := by
    obtain ⟨_, _, _, _, isJoin, _⟩ := closes
    exact isJoin
  apply Nat.le_antisymm
  · refine length_le_of_choice (R := fun f j => ForkJoin.Owns g j f) forks.1 ?_ ?_
    · intro name listed
      obtain ⟨f, reachable, isFork, rfl⟩ := (forks.2 name).mp listed
      obtain ⟨j, closes⟩ := closed f reachable isFork
      exact ⟨j.name, (joins.2 j.name).mpr ⟨j, closes.reachable.2, isJoin closes, rfl⟩, f, j, closes, rfl, rfl⟩
    · rintro _ _ _ ⟨f, j, left, rfl, rfl⟩ ⟨h, k, right, named, rfl⟩
      obtain rfl := same left.reachable.2 right.reachable.2 named.symm
      rw [well.paired.fork_unique f h j left right]
  · refine length_le_of_choice (R := ForkJoin.Owns g) joins.1 ?_ ?_
    · intro name listed
      obtain ⟨j, reachable, kind, rfl⟩ := (joins.2 name).mp listed
      obtain ⟨p, trail⟩ := Graph.reachable_iff_trail.mp reachable
      obtain ⟨f, closes⟩ := well.nested.closes trail kind
      exact ⟨f.name, (forks.2 f.name).mpr ⟨f, closes.reachable.1, closes.isFork, rfl⟩, f, j, closes, rfl, rfl⟩
    · rintro _ _ _ ⟨f, j, left, rfl, rfl⟩ ⟨h, k, right, rfl, named⟩
      obtain rfl := same left.reachable.1 right.reachable.1 named.symm
      rw [well.paired.join_unique f j k left right]

/-- A well-forked graph passes, where all open forks can be closed. -/
theorem Graph.WellForked.passes {g : Graph} {r : Registry} {report : StructureReport} (well : g.WellForked)
    (single : g.SingleExit) (checked : g.checkStructure r = .ok report) (closable : g.Closable) :
    g.checkForkJoin report = .ok () := by
  obtain ⟨s, first, explored⟩ := Graph.explored_of_checkStructure checked
  obtain ⟨_, forks, joins⟩ := explored.report first
  have same := well.same_length closable.closed forks joins
  unfold Graph.checkForkJoin
  rw [if_neg (not_not.mpr same)]
  split
  · rfl
  · simp only [Graph.start, first]
    rcases ForkJoin.walks_or_fails g [] {} [⟨some s.name, true, none⟩] with ⟨entries, final, walks⟩ | ⟨fault, fails⟩
    · exact ForkJoin.run_visit_of_walks walks
    · exact absurd fails
        ((ForkJoin.standing_start first).not_fails single (explored.wellFormed first) closable well)

/-- Where all open forks can be closed and all ways to a fork agree on decisions, the check accepts exactly
    the well-forked graphs. -/
theorem Graph.checkForkJoin_iff {g : Graph} {r : Registry} {report : StructureReport} (single : g.SingleExit)
    (checked : g.checkStructure r = .ok report) (closable : g.Closable) (settled : g.Settled) :
    g.checkForkJoin report = .ok () ↔ g.WellForked :=
  ⟨wellForked_of_check single checked closable settled, fun well => well.passes single checked closable⟩

end WorkflowCompiler
