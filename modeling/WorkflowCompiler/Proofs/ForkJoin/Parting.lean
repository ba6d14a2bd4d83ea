import WorkflowCompiler.Proofs.ForkJoin.WellForked

/-!
Two ways to one node. Where they part there is a fork or a decision
(`Graph.SingleExit.parts`). If they part at a fork of a well-forked graph, both close
it or neither does (`Graph.WellForked.stays_open`); and if both do, then by one join.
So two ways that come to no join in different ways have one first decision: they part
at a decision, or in a fork whose branches come to one node, which lies below a
decision (`Graph.WellForked.shared_decision`).
-/
namespace WorkflowCompiler

/-! ### Trails that part -/

/-- Of two trails one goes on from the other, or they part at some node. -/
theorem Graph.Trail.part {g : Graph} {step : Node → Node → Prop} {a b : List Node} (left : g.Trail step a)
    (right : g.Trail step b) : a <:+ b ∨ b <:+ a ∨
      ∃ m base t u a' b', t ≠ u ∧ a = a' ++ t :: m :: base ∧ b = b' ++ u :: m :: base := by
  induction left with
  | start first =>
    obtain ⟨q, rfl⟩ := right.origin first
    exact .inl ⟨q, rfl⟩
  | @next m n p before onward ih =>
    rcases ih with ⟨c, rfl⟩ | inside | ⟨k, base, t, u, a', b', different, split, split'⟩
    · rcases List.eq_nil_or_concat c with rfl | ⟨c, u, rfl⟩
      · exact .inr (.inl (List.suffix_cons n (m :: p)))
      · by_cases same : n = u
        · exact .inl ⟨c, by simp [same]⟩
        · exact .inr (.inr ⟨m, p, n, u, [], c, same, rfl, by simp⟩)
    · exact .inr (.inl (inside.trans (List.suffix_cons n (m :: p))))
    · exact .inr (.inr ⟨k, base, t, u, n :: a', b', different, by rw [split, List.cons_append], split'⟩)

/-- Only forks and decisions lead to two nodes without an error. -/
theorem Graph.SingleExit.parts {g : Graph} (single : g.SingleExit) {m t u : Node} (member : m ∈ g.nodes)
    (left : g.Succeeds m t) (right : g.Succeeds m u) (different : t ≠ u) :
    m.kind = .fork ∨ m.kind = .decision := by
  obtain ⟨going, a, listed, found⟩ := left
  obtain ⟨_, b, listed', found'⟩ := right
  have apart : a ≠ b := by
    rintro rfl
    exact different (Option.some.inj (found.symm.trans found'))
  have one (few : m.successTransitions.length ≤ 1) : False := by
    match transitions : m.successTransitions with
    | [] => simp [transitions] at listed
    | [c] =>
      rw [transitions, List.mem_singleton] at listed listed'
      exact apart (listed.trans listed'.symm)
    | _ :: _ :: _ => simp [transitions] at few
  cases body : m.body with
  | fork targets => exact .inl (by simp [Node.kind, body])
  | decision switch targets => exact .inr (by simp [Node.kind, body])
  | action ok error spec => exact (one (by simp [Node.successTransitions, body])).elim
  | start targets =>
    have few := single m member (.inl (by simp [Node.kind, body]))
    exact (one (by simp_all [Node.successTransitions, Node.transitions])).elim
  | join targets =>
    have few := single m member (.inr (by simp [Node.kind, body]))
    exact (one (by simp_all [Node.successTransitions, Node.transitions])).elim
  | finish targets => simp [Structure.isTerminal, Node.kind, body] at going
  | kill message targets => simp [Structure.isTerminal, Node.kind, body] at going

open ForkJoin in
/-- The first decision of a trail is that of its beginning, if there is one. -/
theorem firstDecision_append {p : List Node} (decided : firstDecision p ≠ none) (q : List Node) :
    firstDecision (q ++ p) = firstDecision p := by
  obtain ⟨d, decision⟩ := Option.ne_none_iff_exists'.mp decided
  rw [decision]
  induction q with
  | nil => exact decision
  | cons n q ih =>
    rw [List.cons_append, firstDecision, decisionAfter, ih]
    split
    · rfl
    · rfl

/-- Where one of two ways from a fork to a node leaves the fork open, so does the other. -/
theorem Graph.WellForked.stays_open {g : Graph} {r : Registry} (well : g.WellForked) (wellFormed : g.WellFormed r)
    (closable : g.Closable) {x m : Node} {a b base : List Node} (going : Structure.isTerminal x = false)
    (left : g.Trail g.Succeeds (x :: a ++ m :: base)) (right : g.Trail g.Succeeds (x :: b ++ m :: base))
    (isFork : m.kind = .fork) (inside : strayJoins (x :: b) = 0) : strayJoins (x :: a) = 0 := by
  by_contra stray
  have opened : m ∈ openForks (x :: b ++ m :: base) := by
    rw [openForks_append, inside, List.drop_zero, openForks_fork isFork]
    simp
  have again : m ∈ openForks (x :: a ++ m :: base) :=
    well.nested.openForks_subset well.paired.fork_unique (closable.drains right going) left.leads opened
  have nodup := Trail.nodup wellFormed.acyclic left.leads
  rw [openForks_append, openForks_fork isFork] at again
  rcases List.mem_append.mp again with above | below
  · exact (List.nodup_append.mp nodup).2.2 m ((openForks_sublist _).subset above) m (List.mem_cons_self ..) rfl
  · obtain ⟨i, positive⟩ := Nat.exists_eq_succ_of_ne_zero stray
    rw [positive, List.drop_succ_cons] at below
    have before := (openForks_sublist _).subset (List.mem_of_mem_drop below)
    exact (List.nodup_cons.mp (List.nodup_append.mp nodup).2.1).1 before

/-- Two ways from a fork that both close it do so by one join. -/
theorem Graph.Paired.exists_shared {g : Graph} (paired : g.Paired) {m : Node} {a b base : List Node}
    (isFork : m.kind = .fork) (left : g.Trail g.Leads (a ++ m :: base)) (right : g.Trail g.Leads (b ++ m :: base))
    (strayA : strayJoins a ≠ 0) (strayB : strayJoins b ≠ 0) :
    ∃ k above below above' below', k.kind = .join ∧ a = above ++ k :: below ∧ b = above' ++ k :: below' := by
  have opened : openForks (m :: base) = [] ++ m :: openForks base := openForks_fork isFork base
  obtain ⟨above, k, below, rfl, isJoin, inner, closed⟩ := exists_stray strayA
  obtain ⟨above', k', below', rfl, isJoin', inner', closed'⟩ := exists_stray strayB
  rw [List.append_assoc] at left right
  have closes := closes_of_stray left.before isJoin inner opened closed
  have closes' := closes_of_stray right.before isJoin' inner' opened closed'
  obtain rfl := paired.join_unique m k k' closes closes'
  exact ⟨k, above, below, above', below', isJoin, rfl, rfl⟩

/-- Ways from different targets of a fork to a node, which come to no join in different ways, are in the fork. -/
theorem Graph.WellForked.runsTwice {g : Graph} {r : Registry} (well : g.WellForked) (wellFormed : g.WellFormed r)
    (closable : g.Closable) {x m t u : Node} {a b base : List Node} (once : ForkJoin.runsOnce x = true)
    (left : g.Trail g.Succeeds (x :: a ++ m :: base)) (right : g.Trail g.Succeeds (x :: b ++ m :: base))
    (isFork : m.kind = .fork) (fromT : (x :: a).getLast? = some t) (fromU : (x :: b).getLast? = some u)
    (apart : t ≠ u) (joins : ∀ j s s', j.kind = .join → j :: s <:+ a ++ m :: base → j :: s' <:+ b ++ m :: base → s = s') :
    g.RunsTwice m x := by
  simp only [ForkJoin.runsOnce, Bool.and_eq_true, bne_iff_ne] at once
  obtain ⟨⟨notKill, notJoin⟩, notEnd⟩ := once
  have going : Structure.isTerminal x = false := by simp [Structure.isTerminal, notKill, notEnd]
  -- A join comes after x has been left out, since x is none.
  have beyond {k : Node} {above below c : List Node} (isJoin : k.kind = .join) (split : x :: c = above ++ k :: below) :
      k :: (below ++ m :: base) <:+ c ++ m :: base := by
    cases above with
    | nil =>
      obtain ⟨rfl, _⟩ := List.cons.inj split
      exact absurd isJoin notJoin
    | cons _ above =>
      obtain ⟨_, rfl⟩ := List.cons.inj split
      exact ⟨above, by simp⟩
  have inside : strayJoins (x :: a) = 0 := by
    by_contra strayA
    have strayB : strayJoins (x :: b) ≠ 0 :=
      fun none => strayA (well.stays_open wellFormed closable going left right isFork none)
    obtain ⟨k, above, below, above', below', isJoin, splitA, splitB⟩ :=
      well.paired.exists_shared isFork left.leads right.leads strayA strayB
    have same := List.append_cancel_right (joins k _ _ isJoin (beyond isJoin splitA) (beyond isJoin splitB))
    have ends {above c : List Node} (split : x :: c = above ++ k :: below) :
        (x :: c).getLast? = (k :: below).getLast? := by
      rw [split, List.getLast?_append_of_ne_nil _ (List.cons_ne_nil _ _)]
    rw [ends splitA] at fromT
    rw [ends (same ▸ splitB), fromT] at fromU
    exact apart (Option.some.inj fromU)
  have inside' := well.stays_open wellFormed closable going right left isFork inside
  exact ⟨isFork, notJoin, notKill, notEnd, t, u, apart, ⟨x :: a, base, left, rfl, fromT, inside⟩, ⟨x :: b, base, right, rfl, fromU, inside'⟩⟩

open ForkJoin in
/-- Two ways to a node that may run once only, which come to no join in different ways, have one first decision. -/
theorem Graph.WellForked.shared_decision {g : Graph} {r : Registry} (well : g.WellForked) (single : g.SingleExit)
    (wellFormed : g.WellFormed r) (closable : g.Closable) {x : Node} {p q : List Node} (once : runsOnce x = true)
    (left : g.Trail g.Succeeds (x :: p)) (right : g.Trail g.Succeeds (x :: q)) (different : p ≠ q)
    (joins : ∀ j s t, j.kind = .join → j :: s <:+ p → j :: t <:+ q → s = t) :
    firstDecision p = firstDecision q ∧ firstDecision q ≠ none := by
  have nodup {s : List Node} (trail : g.Trail g.Succeeds (x :: s)) : x ∉ s :=
    (List.nodup_cons.mp (Trail.nodup wellFormed.acyclic trail.leads)).1
  rcases left.part right with inside | inside | ⟨m, base, t, u, a, b, apart, splitA, splitB⟩
  · rcases List.suffix_cons_iff.mp inside with same | part
    · exact absurd (List.cons.inj same).2 different
    · exact absurd (part.subset (List.mem_cons_self ..)) (nodup right)
  · rcases List.suffix_cons_iff.mp inside with same | part
    · exact absurd (List.cons.inj same).2 (Ne.symm different)
    · exact absurd (part.subset (List.mem_cons_self ..)) (nodup left)
  have through {s c : List Node} {w : Node} (split : x :: s = c ++ w :: m :: base) :
      ∃ c', (x :: c').getLast? = some w ∧ s = c' ++ m :: base := by
    cases c with
    | nil =>
      obtain ⟨rfl, rest⟩ := List.cons.inj split
      exact ⟨[], rfl, rest⟩
    | cons y c =>
      obtain ⟨rfl, rest⟩ := List.cons.inj split
      exact ⟨c ++ [w], by rw [← List.cons_append, List.getLast?_concat], by simp [rest]⟩
  have decided : firstDecision (m :: base) ≠ none := by
    obtain ⟨a, fromT, rfl⟩ := through splitA
    obtain ⟨b, fromU, rfl⟩ := through splitB
    have leftM := (splitA ▸ left).before
    have rightM := (splitB ▸ right).before
    cases leftM with
    | next arrival onward =>
      cases rightM with
      | next _ onward' =>
        have member := arrival.leads.mem m (List.mem_cons_self ..)
        rcases single.parts member onward onward' apart with isFork | isDecision
        · have twice := well.runsTwice wellFormed closable once left right isFork fromT fromU apart joins
          rw [firstDecision, decisionAfter, if_neg (by simp [isFork])]
          exact well.decided m x base twice arrival
        · simp [firstDecision, decisionAfter, isDecision]
  obtain ⟨a, _, rfl⟩ := through splitA
  obtain ⟨b, _, rfl⟩ := through splitB
  rw [firstDecision_append decided, firstDecision_append decided]
  exact ⟨rfl, decided⟩

end WorkflowCompiler
