import WorkflowCompiler.Proofs.Blocks
import WorkflowCompiler.Proofs.ForkJoin.CleanVisits

/-!
The walk accepts every structured workflow. What a walk still has to pass is an
`Ahead`: nodes, joins of the forks that are open, and at last the end. A name is
`Passable` if, from every state that is ready for what lies ahead of it, the walk
passes all of that and leaves a state from which a sibling branch can pass it once
more. Each kind of node keeps this, so a block does by induction (`Block.passable`),
and with it the checks of the whole workflow pass (`Graph.Runs.checks_pass`).
-/
namespace WorkflowCompiler.ForkJoin

/-- What a walk still has to pass. -/
inductive Ahead
  | ending (names : List String)
  | nodes (names : List String) (rest : Ahead)
  /-- The innermost open fork and the join that closes it. -/
  | join (fork closing : String) (rest : Ahead)

def Ahead.names : Ahead → List String
  | .ending names => names
  | .nodes names rest => names ++ rest.names
  | .join _ closing rest => closing :: rest.names

def Ahead.forks : Ahead → List String
  | .ending _ => []
  | .nodes _ rest => rest.forks
  | .join fork _ rest => fork :: rest.forks

def Ahead.joins : Ahead → List String
  | .ending _ => []
  | .nodes _ rest => rest.joins
  | .join _ closing rest => closing :: rest.joins

theorem Ahead.length_joins (a : Ahead) : a.joins.length = a.forks.length := by
  induction a with
  | ending names => rfl
  | nodes names rest ih => exact ih
  | join fork closing rest ih => simp [joins, forks, ih]

/-- A clean visit with this first decision is not refused. -/
def State.Agrees (s : State) (d : Option String) (name : String) : Prop :=
  ∀ e, s.cleanVisits.lookup name = some e → e = d ∧ d ≠ none

/-- No clean visit of these names was recorded between two states. -/
def Untouched (names : List String) (s after : State) : Prop :=
  ∀ name ∈ names, ∀ e, after.cleanVisits.lookup name = some e → s.cleanVisits.lookup name = some e

/-- A clean walk with this first decision may pass: behind a join that was passed before it is no longer clean. -/
def Ahead.Fits (d : Option String) (s : State) : Ahead → Prop
  | .ending _ => True
  | .nodes names rest => (∀ name ∈ names, s.Agrees d name) ∧ rest.Fits d s
  | .join _ closing rest => closing ∈ s.passedJoins ∨ rest.Fits d s

/-- Each join ahead is passed now, or nothing behind it was visited cleanly. -/
def Ahead.Settled (s after : State) : Ahead → Prop
  | .ending _ => True
  | .nodes _ rest => rest.Settled s after
  | .join _ closing rest => (closing ∈ after.passedJoins ∨ Untouched rest.names s after) ∧ rest.Settled s after

/-- A state in which the walk can go on to what lies ahead. The joins of outer forks may not be known yet. -/
structure Ahead.Ready (a : Ahead) (s : State) : Prop where
  forks : s.forks = a.forks
  joins : s.joins <:+ a.joins
  fresh : ∀ name ∈ a.names, name ∉ s.path

/-- What passing all that lies ahead does to the state. -/
structure Passed (a : Ahead) (clean : Bool) (d : Option String) (s after : State) : Prop where
  unclean : clean = false → after.cleanVisits = s.cleanVisits
  marks : ∀ name e, after.cleanVisits.lookup name = some e →
    s.cleanVisits.lookup name = some e ∨ name ∈ a.names ∧ (d ≠ none → e = d)
  passed : s.passedJoins ⊆ after.passedJoins
  settled : a.Settled s after
  joins : after.joins = a.joins

/-- The walk passes all that lies ahead of a name, from every state that is ready for it. -/
def Passable (g : Graph) (t : String) (a : Ahead) : Prop :=
  ∀ (p : List Node) (s : State) (clean : Bool) (d : Option String), a.Ready s → (clean = true → a.Fits d s) →
    ∃ entries after, Walks g p s [⟨some t, clean, d⟩] entries after ∧ Passed a clean d s after

variable {g : Graph} {p : List Node} {s inner mid after : State} {clean : Bool} {d : Option String} {a : Ahead}
  {n : Node} {kill : String} {message : Option String}

/-! ### States -/

theorem State.Agrees.mono {name : String} (agrees : s.Agrees d name)
    (kept : ∀ e, after.cleanVisits.lookup name = some e → s.cleanVisits.lookup name = some e) : after.Agrees d name :=
  fun e found => agrees e (kept e found)

theorem Ahead.Fits.mono (fits : a.Fits d s) (kept : Untouched a.names s after)
    (passed : s.passedJoins ⊆ after.passedJoins) : a.Fits d after := by
  induction a with
  | ending names => trivial
  | nodes names rest ih =>
    refine ⟨fun name member => (fits.1 name member).mono (kept name (List.mem_append_left _ member)), ?_⟩
    exact ih fits.2 fun name member => kept name (List.mem_append_right _ member)
  | join fork closing rest ih =>
    rcases fits with known | fits
    · exact .inl (passed known)
    · exact .inr (ih fits fun name member => kept name (List.mem_cons_of_mem _ member))

/-- Under a decision, what is ahead can be passed again. -/
theorem Ahead.Fits.again (fits : a.Fits d s) (decided : d ≠ none) (passed : s.passedJoins ⊆ after.passedJoins)
    (marks : ∀ name e, after.cleanVisits.lookup name = some e → s.cleanVisits.lookup name = some e ∨ e = d) :
    a.Fits d after := by
  induction a with
  | ending names => trivial
  | nodes names rest ih =>
    refine ⟨fun name member e found => ?_, ih fits.2⟩
    rcases marks name e found with before | same
    · exact fits.1 name member e before
    · exact ⟨same, decided⟩
  | join fork closing rest ih =>
    rcases fits with known | fits
    · exact .inl (passed known)
    · exact .inr (ih fits)

theorem Ahead.Fits.decide {d' : Option String} (fits : a.Fits d s) (later : d ≠ none → d' = d) : a.Fits d' s := by
  induction a with
  | ending names => trivial
  | nodes names rest ih =>
    refine ⟨fun name member e found => ?_, ih fits.2⟩
    obtain ⟨same, decided⟩ := fits.1 name member e found
    rw [later decided]
    exact ⟨same, decided⟩
  | join fork closing rest ih => exact fits.imp_right ih

/-- Behind a join, and under a decision, what is ahead can be passed again. -/
theorem Passed.fits_again {names : List String} (past : Passed (.nodes names a) clean d s after) (fits : a.Fits d s)
    (again : d = none → ∃ fork closing rest, a = .join fork closing rest) : a.Fits d after := by
  by_cases decided : d = none
  · obtain ⟨fork, closing, rest, rfl⟩ := again decided
    rcases fits with known | fits
    · exact .inl (past.passed known)
    · rcases past.settled.1 with known | untouched
      · exact .inl known
      · exact .inr (fits.mono untouched past.passed)
  · refine fits.again decided past.passed fun name e found => ?_
    rcases past.marks name e found with before | ⟨_, same⟩
    · exact .inl before
    · exact .inr (same decided)

theorem Ahead.Ready.subset {ns ms : List String} (ready : (Ahead.nodes ns a).Ready s) (less : ms ⊆ ns) :
    (Ahead.nodes ms a).Ready s :=
  ⟨ready.forks, ready.joins, fun name member => ready.fresh name (List.append_subset.mpr
    ⟨List.subset_append_of_subset_left _ less, List.subset_append_right _ _⟩ member)⟩

theorem Ahead.Fits.subset {ns ms : List String} (fits : (Ahead.nodes ns a).Fits d s) (less : ms ⊆ ns) :
    (Ahead.nodes ms a).Fits d s :=
  ⟨fun name member => fits.1 name (less member), fits.2⟩

/-- When a branch has been passed, the others still fit. -/
theorem Ahead.Fits.sibling {ns ms : List String} (fits : (Ahead.nodes ms a).Fits d s) (past : Passed (.nodes ns a) clean d s after)
    (apart : ∀ name ∈ ms, name ∉ ns ++ a.names) (again : d = none → ∃ fork closing rest, a = .join fork closing rest) :
    (Ahead.nodes ms a).Fits d after := by
  refine ⟨fun name member => (fits.1 name member).mono fun e found => ?_, past.fits_again fits.2 again⟩
  rcases past.marks name e found with before | ⟨own, _⟩
  · exact before
  · exact absurd own (apart name member)

theorem Ahead.Settled.refl (a : Ahead) (s : State) : a.Settled s s := by
  induction a with
  | ending names => trivial
  | nodes names rest ih => exact ih
  | join fork closing rest ih => exact ⟨.inr fun name member e found => found, ih⟩

theorem Ahead.Settled.trans (first : a.Settled s mid) (second : a.Settled mid after)
    (passed : mid.passedJoins ⊆ after.passedJoins) : a.Settled s after := by
  induction a with
  | ending names => trivial
  | nodes names rest ih => exact ih first second
  | join fork closing rest ih =>
    refine ⟨?_, ih first.2 second.2⟩
    rcases first.1 with known | before
    · exact .inl (passed known)
    · rcases second.1 with known | later
      · exact .inl known
      · exact .inr fun name member e found => before name member e (later name member e found)

theorem Ahead.Settled.outer {final : State} (settled : a.Settled inner after) (before : Untouched a.names s inner)
    (marks : final.cleanVisits = after.cleanVisits) (passed : final.passedJoins = after.passedJoins) :
    a.Settled s final := by
  induction a with
  | ending names => trivial
  | nodes names rest ih => exact ih settled fun name member => before name (List.mem_append_right _ member)
  | join fork closing rest ih =>
    have beyond : Untouched rest.names s inner := fun name member => before name (List.mem_cons_of_mem _ member)
    refine ⟨?_, ih settled.2 beyond⟩
    rw [passed]
    refine settled.1.imp_right fun untouched name member e found => ?_
    exact beyond name member e (untouched name member e (marks ▸ found))

theorem Passed.refl (joins : s.joins = a.joins) (names : List String) : Passed (.nodes names a) clean d s s := by
  refine ⟨fun _ => rfl, ?_, fun name member => member, ?_, joins⟩
  · exact fun name e found => .inl found
  · exact Ahead.Settled.refl a s

/-- Branches are passed one after the other. -/
theorem Passed.trans {ns ms : List String} (first : Passed (.nodes ns a) clean d s mid)
    (second : Passed (.nodes ms a) clean d mid after) : Passed (.nodes (ns ++ ms) a) clean d s after := by
  refine ⟨?_, ?_, ?_, ?_, second.joins⟩
  · exact fun dirty => (second.unclean dirty).trans (first.unclean dirty)
  · intro name e found
    have more (own : name ∈ ns ++ a.names ∨ name ∈ ms ++ a.names) : name ∈ (ns ++ ms) ++ a.names := by
      simp only [List.mem_append] at own ⊢
      tauto
    rcases second.marks name e found with found | ⟨member, same⟩
    · rcases first.marks name e found with found | ⟨member, same⟩
      · exact .inl found
      · exact .inr ⟨more (.inl member), same⟩
    · exact .inr ⟨more (.inr member), same⟩
  · exact fun name member => second.passed (first.passed member)
  · exact Ahead.Settled.trans (a := a) first.settled second.settled second.passed

/-- Where more lies ahead, the same walk passes it. -/
theorem Passed.weaken {ns ms : List String} (past : Passed (.nodes ns a) clean d s after) (more : ns ⊆ ms) :
    Passed (.nodes ms a) clean d s after := by
  refine ⟨past.unclean, fun name e found => ?_, past.passed, past.settled, past.joins⟩
  rcases past.marks name e found with found | ⟨member, same⟩
  · exact .inl found
  · refine .inr ⟨?_, same⟩
    rcases List.mem_append.mp member with own | other
    · exact List.mem_append_left _ (more own)
    · exact List.mem_append_right _ other

/-! ### Single nodes -/

/-- Entering a node records its name at most. -/
structure Enters (name : String) (clean : Bool) (d : Option String) (s inner : State) : Prop where
  unclean : clean = false → inner.cleanVisits = s.cleanVisits
  marks : ∀ other e, inner.cleanVisits.lookup other = some e → s.cleanVisits.lookup other = some e ∨ other = name ∧ e = d
  passed : inner.passedJoins = s.passedJoins
  path : inner.path = name :: s.path
  joins : inner.joins = s.joins

theorem Enters.untouched {name : String} (enters : Enters name clean d s inner) {names : List String}
    (other : name ∉ names) : Untouched names s inner := by
  intro x member e found
  rcases enters.marks x e found with before | ⟨rfl, _⟩
  · exact before
  · exact absurd member other

theorem Enters.fits {name : String} (enters : Enters name clean d s inner) (fits : a.Fits d s) (other : name ∉ a.names) :
    a.Fits d inner :=
  fits.mono (enters.untouched other) (enters.passed ▸ List.Subset.refl _)

theorem resolve_of_mem (member : n ∈ g.nodes) (fresh : n.name ∉ s.path) : resolve g s ⟨some n.name, clean, d⟩ = .ok n := by
  simp [resolve, Graph.find?_of_mem member, fresh]

/-- A visit that agrees with what was recorded before is not refused. -/
theorem enter_agreed (g : Graph) (n : Node) (agrees : clean = true → s.Agrees d n.name) :
    ∃ marks, Enters n.name clean d s { s with path := n.name :: s.path, cleanVisits := marks } ∧
      enter g s ⟨some n.name, clean, d⟩ n =
        follow g { s with path := n.name :: s.path, cleanVisits := marks } n clean d := by
  by_cases counts : (clean && runsOnce n) = true
  · obtain ⟨rfl, once⟩ := (Bool.and_eq_true _ _).mp counts
    cases found : s.cleanVisits.lookup n.name with
    | none =>
      refine ⟨(n.name, d) :: s.cleanVisits, ⟨by simp, ?_, rfl, rfl, rfl⟩, ?_⟩
      · intro other e recorded
        rw [List.lookup_cons] at recorded
        split at recorded
        · rename_i same
          exact .inr ⟨beq_iff_eq.mp same, (Option.some.inj recorded).symm⟩
        · exact .inl recorded
      · simp [enter, State.recordVisit, found, once]
    | some e =>
      obtain ⟨rfl, decided⟩ := agrees rfl e found
      refine ⟨s.cleanVisits, ⟨by simp, fun _ _ recorded => .inl recorded, rfl, rfl, rfl⟩, ?_⟩
      simp [enter, State.recordVisit, found, once, decided]
  · refine ⟨s.cleanVisits, ⟨fun _ => rfl, fun _ _ recorded => .inl recorded, rfl, rfl, rfl⟩, ?_⟩
    simp only [enter, counts]
    rfl

theorem Walks.cons {v : Visit} {visits : List Visit} {first later : List Entry} (walks : Walks g p s [v] first mid)
    (onward : Walks g p mid visits later after) : ∃ entries, Walks g p s (v :: visits) entries after := by
  cases walks with
  | visit found entered inside rest =>
    cases rest
    exact ⟨_, .visit found entered inside onward⟩

/-- A kill node leaves no trace. -/
theorem walks_kill (member : ⟨kill, .kill message []⟩ ∈ g.nodes) (fresh : kill ∉ s.path) :
    ∃ entries, Walks g p s [⟨some kill, clean, d⟩] entries s := by
  have found : resolve g s ⟨some kill, clean, d⟩ = .ok ⟨kill, .kill message []⟩ := resolve_of_mem member fresh
  have entered : enter g s ⟨some kill, clean, d⟩ ⟨kill, .kill message []⟩ =
      .ok ([], .nothing, { s with path := kill :: s.path }) := by
    simp [enter, runsOnce, Node.kind, follow]
  exact ⟨_, .visit found entered .done .done⟩

theorem Passable.ending {stop : String} {names : List String} (member : ⟨stop, .finish []⟩ ∈ g.nodes)
    (listed : stop ∈ names) : Passable g stop (.ending names) := by
  intro p s clean d ready _
  have found : resolve g s ⟨some stop, clean, d⟩ = .ok ⟨stop, .finish []⟩ := resolve_of_mem member (ready.fresh stop listed)
  have outside : s.forks = [] := ready.forks
  have entered : enter g s ⟨some stop, clean, d⟩ ⟨stop, .finish []⟩ =
      .ok ([], .nothing, { s with path := stop :: s.path }) := by
    simp [enter, runsOnce, Node.kind, follow, outside]
  refine ⟨_, s, .visit found entered .done .done, fun _ => rfl, ?_, fun name member => member, trivial, ?_⟩
  · exact fun name e found => .inl found
  · exact List.suffix_nil.mp ready.joins

/-- A join is the one that its fork waits for, known before or not. -/
theorem expectJoin_of_suffix {fork closing : String} {outer joins : List String} (forks : s.forks = fork :: outer)
    (known : s.joins <:+ closing :: joins) (balanced : joins.length = outer.length) :
    (s.expectJoin closing).head? = some closing ∧ (s.expectJoin closing).tail <:+ joins := by
  unfold State.expectJoin
  split
  · rename_i missing
    refine ⟨rfl, ?_⟩
    rcases List.suffix_cons_iff.mp known with same | shorter
    · rw [same] at missing
      exact absurd rfl missing.2
    · exact shorter
  · rename_i present
    rcases List.suffix_cons_iff.mp known with same | shorter
    · rw [same]
      exact ⟨rfl, List.suffix_refl _⟩
    · have less : s.joins.length < s.forks.length := by
        have := shorter.length_le
        simp only [forks, List.length_cons]
        omega
      have head : s.joins.head? = some closing := by
        by_contra other
        exact present ⟨less, other⟩
      exact ⟨head, (List.tail_suffix _).trans shorter⟩

/-- Going on behind the join of the innermost fork records no visit, and behind one that was passed before it is no
    longer clean. -/
structure Rejoins (closing : String) (clean still : Bool) (s inner : State) : Prop where
  dirty : clean = false → still = false
  marks : inner.cleanVisits = s.cleanVisits
  passed : s.passedJoins ⊆ inner.passedJoins
  passes : still = true → closing ∈ inner.passedJoins

/-- Behind the join of the innermost fork the walk is ready for what comes next. -/
theorem Ahead.Ready.rejoin {t fork closing : String} (ready : (Ahead.join fork closing a).Ready s)
    (fits : clean = true → (Ahead.join fork closing a).Fits d s) (fresh : closing ∉ a.names)
    (member : ⟨closing, .join [t]⟩ ∈ g.nodes) :
    ∃ still inner, resolve g s ⟨some closing, clean, d⟩ = .ok ⟨closing, .join [t]⟩ ∧
      enter g s ⟨some closing, clean, d⟩ ⟨closing, .join [t]⟩ = .ok ([⟨some t, still, d⟩], .reopenFork fork closing, inner) ∧
      Rejoins closing clean still s inner ∧ a.Ready inner ∧ (still = true → a.Fits d inner) := by
  have forks : s.forks = fork :: a.forks := ready.forks
  obtain ⟨unvisited, beyond⟩ := List.forall_mem_cons.mp ready.fresh
  obtain ⟨head, known⟩ := expectJoin_of_suffix forks ready.joins a.length_joins
  have expected : ({ s with path := closing :: s.path, forks := fork :: a.forks } : State).expectJoin closing =
      s.expectJoin closing := by simp [State.expectJoin, forks]
  obtain ⟨still, same⟩ : ∃ still, still = (clean && decide (closing ∉ s.passedJoins)) := ⟨_, rfl⟩
  let inner : State := { s with
    path := closing :: s.path
    forks := a.forks
    joins := (s.expectJoin closing).tail
    passedJoins := if still then closing :: s.passedJoins else s.passedJoins }
  have rejoins : Rejoins closing clean still s inner := by
    refine ⟨fun dirty => by rw [same, dirty, Bool.false_and], rfl, ?_, fun now => ?_⟩
    · show s.passedJoins ⊆ if still then closing :: s.passedJoins else s.passedJoins
      split
      · exact List.subset_cons_self _ _
      · exact List.Subset.refl _
    · show closing ∈ if still then closing :: s.passedJoins else s.passedJoins
      rw [if_pos now]
      exact List.mem_cons_self
  refine ⟨still, inner, resolve_of_mem member unvisited, ?_, rejoins, ⟨rfl, known, fun name listed visited => ?_⟩, fun now => ?_⟩
  · simp [enter, runsOnce, Node.kind, follow, forks, expected, head, inner, same]
  · rcases List.mem_cons.mp visited with rfl | visited
    · exact fresh listed
    · exact beyond name listed visited
  · rw [same, Bool.and_eq_true, decide_eq_true_eq] at now
    rcases fits now.1 with before | fits
    · exact absurd before now.2
    · exact fits.mono (fun _ _ _ found => found) rejoins.passed

/-- What is passed behind a join is passed with it. -/
theorem Passed.rejoin {closing : String} {still : Bool} (past : Passed a still d inner after)
    (rejoins : Rejoins closing clean still s inner) (fork : String) :
    Passed (.join fork closing a) clean d s (after.leave (.reopenFork fork closing)) := by
  have untouched (names : List String) : Untouched names s inner := fun name _ e found => rejoins.marks ▸ found
  refine ⟨fun dirty => (past.unclean (rejoins.dirty dirty)).trans rejoins.marks, fun name e found => ?_,
    List.Subset.trans rejoins.passed past.passed, ⟨?_, past.settled.outer (untouched a.names) rfl rfl⟩, congrArg (closing :: ·) past.joins⟩
  · rw [← rejoins.marks]
    exact (past.marks name e found).imp_right fun own => ⟨List.mem_cons_of_mem _ own.1, own.2⟩
  · cases now : still with
    | true => exact .inl (past.passed (rejoins.passes now))
    | false =>
      refine .inr fun name member e found => untouched a.names name member e ?_
      rwa [← past.unclean now]

theorem Passable.join {t fork closing : String} (next : Passable g t a) (member : ⟨closing, .join [t]⟩ ∈ g.nodes)
    (fresh : closing ∉ a.names) : Passable g closing (.join fork closing a) := by
  intro p s clean d ready fits
  obtain ⟨still, inner, found, entered, rejoins, readyInner, fitsInner⟩ := ready.rejoin fits fresh member
  obtain ⟨entries, mid, walks, past⟩ := next (⟨closing, .join [t]⟩ :: p) inner still d readyInner fitsInner
  exact ⟨_, _, .visit found entered walks .done, past.rejoin rejoins fork⟩

/-- A node before others is passed with them. -/
theorem Passed.outer {b : Ahead} {name : String} {names : List String} {d' : Option String} {final : State}
    (past : Passed b clean d' inner after) (enters : Enters name clean d s inner) (later : d ≠ none → d' = d)
    (inside : b.names ⊆ names ++ a.names) (own : name ∈ names) (other : name ∉ a.names) (settled : a.Settled inner after)
    (marks : final.cleanVisits = after.cleanVisits) (passed : final.passedJoins = after.passedJoins)
    (joins : final.joins = a.joins) : Passed (.nodes names a) clean d s final := by
  refine ⟨?_, ?_, ?_, ?_, joins⟩
  · intro dirty
    rw [marks, past.unclean dirty, enters.unclean dirty]
  · intro x e found
    rcases past.marks x e (marks ▸ found) with found | ⟨member, same⟩
    · rcases enters.marks x e found with found | ⟨rfl, same⟩
      · exact .inl found
      · exact .inr ⟨List.mem_append_left _ own, fun _ => same⟩
    · exact .inr ⟨inside member, fun decided => (same (later decided ▸ decided)).trans (later decided)⟩
  · rw [passed, ← enters.passed]
    exact past.passed
  · exact settled.outer (enters.untouched other) marks passed

/-- Behind the first of some nodes the walk is ready for the others. -/
theorem Ahead.Ready.enter {name : String} {names : List String} (body : NodeBody)
    (ready : (Ahead.nodes (name :: names) a).Ready s) (fits : clean = true → (Ahead.nodes (name :: names) a).Fits d s)
    (fresh : name ∉ names ++ a.names) (member : ⟨name, body⟩ ∈ g.nodes) :
    ∃ inner, resolve g s ⟨some name, clean, d⟩ = .ok ⟨name, body⟩ ∧
      enter g s ⟨some name, clean, d⟩ ⟨name, body⟩ = follow g inner ⟨name, body⟩ clean d ∧
      Enters name clean d s inner ∧ (Ahead.nodes names a).Ready inner ∧
      (clean = true → (Ahead.nodes names a).Fits d inner) := by
  obtain ⟨unvisited, beyond⟩ := List.forall_mem_cons.mp ready.fresh
  obtain ⟨marks, enters, entered⟩ := enter_agreed g ⟨name, body⟩ fun still =>
    (fits still).1 name (List.mem_cons_self ..)
  refine ⟨_, resolve_of_mem member unvisited, entered, enters, ⟨ready.forks, ready.joins, ?_⟩, ?_⟩
  · intro other listed visited
    rcases List.mem_cons.mp visited with rfl | visited
    · exact fresh listed
    · exact beyond other listed visited
  · intro still
    exact enters.fits (a := .nodes names a) ((fits still).subset (List.subset_cons_self _ _)) fresh

theorem Passable.action {t name : String} {names : List String} {spec : ActionSpec} (next : Passable g t (.nodes names a))
    (member : ⟨name, .action t kill spec⟩ ∈ g.nodes) (fresh : name ∉ names ++ a.names) (errors : kill ∈ a.names)
    (killed : ⟨kill, .kill message []⟩ ∈ g.nodes) : Passable g name (.nodes (name :: names) a) := by
  intro p s clean d ready fits
  obtain ⟨inner, found, entered, enters, readyInner, fitsInner⟩ := ready.enter _ fits fresh member
  obtain ⟨entries, mid, walks, past⟩ := next (⟨name, .action t kill spec⟩ :: p) inner clean d readyInner fitsInner
  have unvisited : kill ∉ mid.path := walks.path ▸ readyInner.fresh kill (List.mem_append_right _ errors)
  obtain ⟨last, stopped⟩ : ∃ last, Walks g (⟨name, .action t kill spec⟩ :: p) mid [⟨some kill, false, d⟩] last mid :=
    walks_kill killed unvisited
  obtain ⟨all, inside⟩ := walks.cons stopped
  refine ⟨_, _, .visit found entered inside .done, ?_⟩
  exact past.outer enters (fun _ => rfl) (fun x member => List.mem_cons_of_mem _ member) (List.mem_cons_self ..)
    (fun member => fresh (List.mem_append_right _ member)) past.settled rfl rfl past.joins

theorem Passable.start {t name : String} {names : List String} (next : Passable g t (.nodes names a))
    (member : ⟨name, .start [t]⟩ ∈ g.nodes) (fresh : name ∉ names ++ a.names) :
    Passable g name (.nodes (name :: names) a) := by
  intro p s clean d ready fits
  obtain ⟨inner, found, entered, enters, readyInner, fitsInner⟩ := ready.enter _ fits fresh member
  obtain ⟨entries, mid, walks, past⟩ := next (⟨name, .start [t]⟩ :: p) inner clean d readyInner fitsInner
  refine ⟨_, _, .visit found entered walks .done, ?_⟩
  exact past.outer enters (fun _ => rfl) (fun x member => List.mem_cons_of_mem _ member) (List.mem_cons_self ..)
    (fun member => fresh (List.mem_append_right _ member)) past.settled rfl rfl past.joins

/-! ### Branches -/

/-- The walk passes all the different branches. -/
theorem walks_branches {ways : List (String × List String)} (all : ∀ w ∈ ways, Passable g w.1 (.nodes w.2 a))
    (distinct : (ways.flatMap Prod.snd ++ a.names).Nodup)
    (again : d = none → ∃ fork closing rest, a = .join fork closing rest) (seen : List String)
    (ready : (Ahead.nodes (ways.flatMap Prod.snd) a).Ready s) (joins : s.joins = a.joins ∨ ∃ w ∈ ways, w.1 ∉ seen)
    (fits : clean = true → (Ahead.nodes (ways.flatMap Prod.snd) a).Fits d s) :
    ∃ entries after, Walks g p s ((distinctAfter seen (ways.map Prod.fst)).map fun t => ⟨some t, clean, d⟩) entries after ∧
      Passed (.nodes (ways.flatMap Prod.snd) a) clean d s after := by
  induction ways generalizing seen s with
  | nil =>
    have known : s.joins = a.joins := by simpa using joins
    exact ⟨[], s, .done, .refl known _⟩
  | cons w ways ih =>
    obtain ⟨first, others⟩ := List.forall_mem_cons.mp all
    rw [List.flatMap_cons] at distinct ready fits ⊢
    rw [List.append_assoc] at distinct
    obtain ⟨_, distinctOthers, apart⟩ := List.nodup_append.mp distinct
    have later : ways.flatMap Prod.snd ⊆ w.2 ++ ways.flatMap Prod.snd := List.subset_append_right _ _
    rw [List.map_cons, distinctAfter]
    split
    · rename_i known
      have joins : s.joins = a.joins ∨ ∃ w ∈ ways, w.1 ∉ seen := by
        refine joins.imp_right ?_
        rintro ⟨v, member, fresh⟩
        rcases List.mem_cons.mp member with rfl | later
        · exact absurd known fresh
        · exact ⟨v, later, fresh⟩
      obtain ⟨entries, after, walks, past⟩ :=
        ih others distinctOthers seen (ready.subset later) joins fun still => (fits still).subset later
      exact ⟨entries, after, walks, past.weaken later⟩
    · have now : w.2 ⊆ w.2 ++ ways.flatMap Prod.snd := List.subset_append_left _ _
      obtain ⟨here, mid, walks, past⟩ := first p s clean d (ready.subset now) fun still => (fits still).subset now
      have readyMid : (Ahead.nodes (ways.flatMap Prod.snd) a).Ready mid :=
        ⟨walks.forks.trans ready.forks, past.joins ▸ List.suffix_refl _, walks.path ▸ (ready.subset later).fresh⟩
      have fresh : ∀ name ∈ ways.flatMap Prod.snd, name ∉ w.2 ++ a.names := by
        intro name member own
        rcases List.mem_append.mp own with own | own
        · exact apart name own name (List.mem_append_left _ member) rfl
        · exact (List.nodup_append.mp distinctOthers).2.2 name member name own rfl
      obtain ⟨rest, after, onward, pastOthers⟩ := ih others distinctOthers (w.1 :: seen) readyMid (.inl past.joins)
        fun still => ((fits still).subset later).sibling past fresh again
      obtain ⟨entries, both⟩ := walks.cons onward
      exact ⟨entries, after, both, past.trans pastOthers⟩

theorem Passable.decision {name switch : String} {ways : List (String × List String)} (some : ways ≠ [])
    (all : ∀ w ∈ ways, Passable g w.1 (.nodes w.2 a)) (distinct : (name :: (ways.flatMap Prod.snd ++ a.names)).Nodup)
    (member : ⟨name, .decision switch (ways.map Prod.fst)⟩ ∈ g.nodes) :
    Passable g name (.nodes (name :: ways.flatMap Prod.snd) a) := by
  intro p s clean d ready fits
  obtain ⟨fresh, others⟩ := List.nodup_cons.mp distinct
  obtain ⟨inner, found, entered, enters, readyInner, fitsInner⟩ := ready.enter _ fits fresh member
  have decided : d.or (.some name) ≠ none := by cases d <;> simp
  have later (decided : d ≠ none) : d.or (.some name) = d := by
    cases d with
    | none => exact absurd rfl decided
    | some e => rfl
  obtain ⟨w, first⟩ := List.exists_mem_of_ne_nil ways some
  obtain ⟨entries, mid, walks, past⟩ := walks_branches (p := ⟨name, .decision switch (ways.map Prod.fst)⟩ :: p)
    all others (fun none => absurd none decided) [] readyInner (.inr ⟨w, first, List.not_mem_nil⟩)
    fun still => (fitsInner still).decide later
  refine ⟨_, _, .visit found entered walks .done, ?_⟩
  exact past.outer enters later (fun x member => List.mem_cons_of_mem _ member) (List.mem_cons_self ..)
    (fun member => fresh (List.mem_append_right _ member)) past.settled rfl rfl past.joins

theorem Passable.fork {name closing : String} {ways : List (String × List String)} (some : ways ≠ [])
    (all : ∀ w ∈ ways, Passable g w.1 (.nodes w.2 (.join name closing a)))
    (distinct : (name :: (ways.flatMap Prod.snd ++ closing :: a.names)).Nodup)
    (member : ⟨name, .fork (ways.map Prod.fst)⟩ ∈ g.nodes) (single : repeatedTarget? g (ways.map Prod.fst) = none) :
    Passable g name (.nodes (name :: (ways.flatMap Prod.snd ++ [closing])) a) := by
  intro p s clean d ready fits
  obtain ⟨fresh, others⟩ := List.nodup_cons.mp distinct
  obtain ⟨inner, found, entered, enters, readyInner, fitsInner⟩ := ready.enter _ fits (by simpa using fresh) member
  -- Inside the fork the same names are ahead, with the join that closes the fork among them.
  have readyFork : (Ahead.nodes (ways.flatMap Prod.snd) (.join name closing a)).Ready
      { inner with forks := name :: inner.forks } := by
    refine ⟨congrArg (name :: ·) readyInner.forks, readyInner.joins.trans (List.suffix_cons ..), ?_⟩
    exact fun x member => readyInner.fresh x (by simpa [Ahead.names] using member)
  have fitsFork (still : clean = true) : (Ahead.nodes (ways.flatMap Prod.snd) (.join name closing a)).Fits d
      { inner with forks := name :: inner.forks } := by
    refine Ahead.Fits.mono (s := inner) ⟨fun x member => ?_, .inr (fitsInner still).2⟩ (fun _ _ _ found => found)
      (List.Subset.refl _)
    exact (fitsInner still).1 x (List.mem_append_left _ member)
  have entersFork : Enters name clean d s { inner with forks := name :: inner.forks } :=
    ⟨enters.unclean, enters.marks, enters.passed, enters.path, enters.joins⟩
  obtain ⟨w, first⟩ := List.exists_mem_of_ne_nil ways some
  obtain ⟨entries, mid, walks, past⟩ := walks_branches (p := ⟨name, .fork (ways.map Prod.fst)⟩ :: p)
    all others (fun _ => ⟨_, _, _, rfl⟩) [] readyFork (.inr ⟨w, first, List.not_mem_nil⟩) fitsFork
  simp only [follow, single] at entered
  refine ⟨_, _, .visit found entered walks .done, ?_⟩
  refine past.outer entersFork (fun _ => rfl) ?_ (List.mem_cons_self ..) ?_ past.settled.2 rfl rfl ?_
  · intro x member
    simp only [Ahead.names, List.mem_append, List.mem_cons] at member ⊢
    tauto
  · exact fun member => fresh (List.mem_append_right _ (List.mem_cons_of_mem _ member))
  · exact congrArg List.tail past.joins

/-- Nodes ahead of nodes. -/
theorem Passable.merge {t : String} {ns ms : List String} (passable : Passable g t (.nodes ns (.nodes ms a))) :
    Passable g t (.nodes (ns ++ ms) a) := by
  intro p s clean d ready fits
  have ready : (Ahead.nodes ns (.nodes ms a)).Ready s := by
    refine ⟨ready.forks, ready.joins, fun name member => ready.fresh name ?_⟩
    simpa [Ahead.names] using member
  have fits (still : clean = true) : (Ahead.nodes ns (.nodes ms a)).Fits d s :=
    ⟨fun name member => (fits still).1 name (List.mem_append_left _ member),
      fun name member => (fits still).1 name (List.mem_append_right _ member), (fits still).2⟩
  obtain ⟨entries, after, walks, past⟩ := passable p s clean d ready fits
  refine ⟨entries, after, walks, past.unclean, fun name e found => ?_, past.passed, past.settled, past.joins⟩
  simpa [Ahead.names] using past.marks name e found

theorem Passable.none {t : String} (passable : Passable g t a) : Passable g t (.nodes [] a) := by
  intro p s clean d ready fits
  obtain ⟨entries, after, walks, past⟩ := passable p s clean d ⟨ready.forks, ready.joins, ready.fresh⟩
    fun still => (fits still).2
  exact ⟨entries, after, walks, past.unclean, past.marks, past.passed, past.settled, past.joins⟩

end WorkflowCompiler.ForkJoin

namespace WorkflowCompiler

open ForkJoin (Ahead Passable repeatedTarget?)

/-- Where each block begins and what its nodes are called. -/
def Branches.ways (kill after : String) : Branches → List (String × List String)
  | .one b => [(b.entry after, nodeNames (b.nodes kill after))]
  | .more b rest => (b.entry after, nodeNames (b.nodes kill after)) :: rest.ways kill after

theorem Branches.ways_ne_nil (kill after : String) (bs : Branches) : bs.ways kill after ≠ [] := by
  cases bs <;> simp [Branches.ways]

theorem Branches.entries_eq (kill after : String) (bs : Branches) : bs.entries after = (bs.ways kill after).map Prod.fst := by
  cases bs with
  | one b => rfl
  | more b rest =>
    rw [Branches.entries, Branches.ways, rest.entries_eq kill after]
    rfl

theorem Branches.nodeNames_eq (kill after : String) (bs : Branches) :
    nodeNames (bs.nodes kill after) = (bs.ways kill after).flatMap Prod.snd := by
  cases bs with
  | one b => simp [Branches.nodes, Branches.ways]
  | more b rest => simp [Branches.nodes, Branches.ways, rest.nodeNames_eq kill after]

variable {g : Graph} {kill : String} {message : Option String}

/-- The branches of a fork begin apart, but for those that lead to the join at once. -/
theorem Branches.repeatedTarget? {closing t : String} (joins : ⟨closing, .join [t]⟩ ∈ g.nodes) (bs : Branches)
    (distinct : (nodeNames (bs.nodes kill closing) ++ [closing]).Nodup) :
    ForkJoin.repeatedTarget? g (bs.entries closing) = none := by
  cases bs with
  | one b => simp [Branches.entries, ForkJoin.repeatedTarget?]
  | more b rest =>
    rw [Branches.nodes, nodeNames_append, List.append_assoc] at distinct
    obtain ⟨_, others, apart⟩ := List.nodup_append.mp distinct
    have later := rest.repeatedTarget? joins others
    rw [Branches.entries, ForkJoin.repeatedTarget?]
    rcases List.mem_append.mp (b.entry_mem kill (List.mem_singleton_self closing)) with own | same
    · have fresh : b.entry closing ∉ rest.entries closing := fun member =>
        apart _ own _ (rest.entries_mem kill (List.mem_singleton_self closing) _ member) rfl
      simp [later, fresh]
    · rw [List.mem_singleton.mp same, Graph.find?_of_mem (n := ⟨closing, .join [t]⟩) joins]
      simp [later, Node.kind]

mutual

/-- The walk passes a block, if it passes what follows. -/
theorem Block.passable {a : Ahead} {after : String} (next : Passable g after a) (errors : kill ∈ a.names)
    (killed : ⟨kill, .kill message []⟩ ∈ g.nodes) :
    (b : Block) → b.nodes kill after ⊆ g.nodes → (nodeNames (b.nodes kill after) ++ a.names).Nodup →
      Passable g (b.entry after) (.nodes (nodeNames (b.nodes kill after)) a)
  | .empty => fun _ _ => next.none
  | .action name spec beyond => by
    intro inside distinct
    rw [Block.nodes] at inside distinct ⊢
    obtain ⟨here, inside⟩ := List.cons_subset.mp inside
    obtain ⟨fresh, others⟩ := List.nodup_cons.mp distinct
    exact (beyond.passable next errors killed inside others).action here fresh errors killed
  | .decision name switch branches beyond => by
    intro inside distinct
    rw [Block.nodes] at inside distinct ⊢
    obtain ⟨here, inside⟩ := List.cons_subset.mp inside
    obtain ⟨within, inside⟩ := List.append_subset.mp inside
    rw [nodeNames_cons, nodeNames_append, List.cons_append, List.append_assoc] at distinct
    obtain ⟨_, others⟩ := List.nodup_cons.mp distinct
    have following := beyond.passable next errors killed inside (List.nodup_append.mp others).2.1
    have all := branches.passable following (List.mem_append_right _ errors) killed within others
    rw [branches.nodeNames_eq] at distinct
    rw [branches.entries_eq kill] at here
    have passable := Passable.decision (branches.ways_ne_nil kill _) all distinct here
    rw [← branches.nodeNames_eq] at passable
    rw [nodeNames_cons, nodeNames_append]
    exact passable.merge
  | .fork name join branches beyond => by
    intro inside distinct
    rw [Block.nodes] at inside distinct ⊢
    obtain ⟨here, inside⟩ := List.cons_subset.mp inside
    obtain ⟨within, inside⟩ := List.append_subset.mp inside
    obtain ⟨closing, inside⟩ := List.cons_subset.mp inside
    rw [nodeNames_cons, nodeNames_append, nodeNames_cons, List.cons_append, List.append_assoc, List.cons_append] at distinct
    obtain ⟨_, others⟩ := List.nodup_cons.mp distinct
    obtain ⟨_, later, apart⟩ := List.nodup_append.mp others
    obtain ⟨fresh, rest⟩ := List.nodup_cons.mp later
    have following := beyond.passable next errors killed inside rest
    have joined : Passable g join (.join name join (.nodes _ a)) := following.join closing fresh
    have all := branches.passable joined (List.mem_cons_of_mem _ (List.mem_append_right _ errors)) killed within others
    have single : ForkJoin.repeatedTarget? g (branches.entries join) = none :=
      branches.repeatedTarget? closing (others.sublist (((List.nil_sublist _).cons_cons join).append_left _))
    rw [branches.nodeNames_eq] at distinct
    rw [branches.entries_eq kill] at here single
    have passable := Passable.fork (branches.ways_ne_nil kill _) all distinct here single
    rw [← branches.nodeNames_eq] at passable
    have merged := passable.merge
    simpa [Block.entry] using merged

theorem Branches.passable {a : Ahead} {after : String} (next : Passable g after a) (errors : kill ∈ a.names)
    (killed : ⟨kill, .kill message []⟩ ∈ g.nodes) :
    (bs : Branches) → bs.nodes kill after ⊆ g.nodes → (nodeNames (bs.nodes kill after) ++ a.names).Nodup →
      ∀ w ∈ bs.ways kill after, Passable g w.1 (.nodes w.2 a)
  | .one b => by
    intro inside distinct w member
    rw [Branches.nodes] at inside distinct
    rw [List.mem_singleton.mp member]
    exact b.passable next errors killed inside distinct
  | .more b rest => by
    intro inside distinct
    rw [Branches.nodes] at inside distinct
    obtain ⟨here, inside⟩ := List.append_subset.mp inside
    rw [nodeNames_append, List.append_assoc] at distinct
    obtain ⟨own, others, apart⟩ := List.nodup_append.mp distinct
    refine List.forall_mem_cons.mpr ⟨?_, rest.passable next errors killed inside others⟩
    refine b.passable next errors killed here (List.nodup_append.mpr ⟨own, (List.nodup_append.mp others).2.1, ?_⟩)
    exact fun x first y later => apart x first y (List.mem_append_right _ later)

end

/-- A structured workflow with legal names and action types that exist passes all checks. -/
theorem Graph.Runs.checks_pass {stop : String} {b : Block} (runs : g.Runs kill stop message b) {r : Registry}
    (named : ∀ n ∈ g.nodes, n.kind ≠ .start → LegalName n.name)
    (typed : ∀ n ∈ g.nodes, ∀ ok error spec, n.body = .action ok error spec →
      ∃ e, Markup.parse spec.conf = .ok e ∧ r.supports e.name = true) :
    ∃ report, g.checkStructure r = .ok report ∧ g.checkForkJoin report = .ok () := by
  have correct := checkStructure_correct (r := r) runs.start
  cases checked : g.checkStructure r with
  | error fault =>
    rw [checked] at correct
    exact absurd (runs.wellFormed named typed) correct
  | ok report =>
    refine ⟨report, rfl, ?_⟩
    unfold Graph.checkForkJoin
    rw [if_neg (not_not.mpr (runs.forks_eq_joins checked))]
    split
    · rfl
    · have names : (nodeNames (b.workflow kill stop message)).Nodup :=
        (List.Perm.nodup_iff (runs.map Node.name)).mp g.distinct
      rw [Block.workflow, nodeNames_cons, nodeNames_append] at names
      obtain ⟨apart, names⟩ := List.nodup_cons.mp names
      have inside : b.nodes kill stop ⊆ g.nodes := fun n member => (runs.mem_iff n).mpr (.inr (.inl member))
      have killed := (runs.mem_iff ⟨kill, .kill message []⟩).mpr (.inr (.inr (.inl rfl)))
      have stopped := (runs.mem_iff ⟨stop, .finish []⟩).mpr (.inr (.inr (.inr rfl)))
      have ends : Passable g stop (.ending [kill, stop]) := .ending stopped (by simp)
      have passable := (b.passable ends (by simp [Ahead.names]) killed inside names).start
        ((runs.mem_iff _).mpr (.inl rfl)) apart
      obtain ⟨entries, after, walks, _⟩ := passable [] {} true none ⟨rfl, List.nil_suffix, fun _ _ => List.not_mem_nil⟩
        fun _ => ⟨fun name _ e found => by simp at found, trivial⟩
      simp [Graph.start, runs.start, ForkJoin.run_visit_of_walks walks]

/-- A decision between nothing and a fork with an empty branch and a fork inside, above one last action. -/
def Block.sample : Block :=
  .decision "choose" "<switch/>"
    (.more .empty (.one
      (.fork "split" "meet"
        (.more (.action "left" { conf := "<shell/>" } .empty)
          (.more .empty (.one (.fork "inner" "close"
            (.more (.action "near" { conf := "<shell/>" } .empty) (.one (.action "far" { conf := "<fs/>" } .empty)))
            .empty))))
        (.action "both" { conf := "<shell/>" } .empty))))
    (.action "last" { conf := "<fs/>" } .empty)

def Graph.sample : Graph where
  name := "sample"
  nodes := Block.sample.workflow "stop" "done" none
  distinct := by decide

theorem Graph.checks_pass_sample : sample.Runs "stop" "done" none Block.sample ∧
    ∃ report, sample.checkStructure (Registry.withBuiltins []) = .ok report ∧ sample.checkForkJoin report = .ok () := by
  have passes : ∀ n ∈ sample.nodes, Structure.checkNode (Registry.withBuiltins []) n = .ok () :=
    Structure.checkNode_of_isOk (by decide +kernel)
  have legal (n : Node) (member : n ∈ sample.nodes) := (Structure.checkNode_ok_iff _ n).mp (passes n member)
  have runs : sample.Runs "stop" "done" none Block.sample := List.Perm.refl _
  exact ⟨runs, runs.checks_pass (fun n member => (legal n member).1) fun n member => (legal n member).2⟩

end WorkflowCompiler
