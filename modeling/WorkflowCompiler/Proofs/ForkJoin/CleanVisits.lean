import WorkflowCompiler.Proofs.ForkJoin.Walks

/-!
What a walk records of its clean visits. Nothing that was recorded is lost or
changed (`Grows`). Where a first decision is recorded with a node, the decision is
recorded as well, and so is a fork that a passed join closes (`Ledger`). From this
follows what a second visit can rely on: on a walk from a trail without decisions,
no node that may run once only is entered cleanly when it was recorded before the
walk began (`Walks.fresh`).
-/
namespace WorkflowCompiler.ForkJoin

/-- A clean visit of the node was recorded. -/
def State.Recorded (s : State) (name : String) : Prop := ∃ d, s.cleanVisits.lookup name = some d

/-- What is recorded stays as it is. -/
structure Grows (s after : State) : Prop where
  marks : ∀ name d, s.cleanVisits.lookup name = some d → after.cleanVisits.lookup name = some d
  joins : s.passedJoins ⊆ after.passedJoins

/-- What is recorded is complete: with a node its first decision, with a join the fork it closes. -/
structure Ledger (g : Graph) (s : State) : Prop where
  decisions : ∀ name d, s.cleanVisits.lookup name = some (some d) → s.Recorded d
  owners : ∀ name ∈ s.passedJoins, ∃ f j, g.Closes g.Succeeds f j ∧ j.name = name ∧ s.Recorded f.name

/-- All nodes of a trail that may run once only are recorded. -/
def Noted (s : State) (p : List Node) : Prop := ∀ n ∈ p, runsOnce n = true → s.Recorded n.name

/-- A join that a walk passes cleanly. -/
def Entry.Passes (e : Entry) : Prop :=
  e.node.kind = .join ∧ staysClean e.state e.node e.visit.clean = true

variable {g : Graph} {p : List Node} {s inner last final : State} {v : Visit} {n : Node} {visits : List Visit}
  {undo : Undo} {entries below : List Entry}

theorem Grows.refl (s : State) : Grows s s := ⟨fun _ _ found => found, fun _ member => member⟩

theorem Grows.trans {s mid after : State} (first : Grows s mid) (second : Grows mid after) : Grows s after :=
  ⟨fun name d found => second.marks name d (first.marks name d found), fun _ member => second.joins (first.joins member)⟩

theorem State.Recorded.mono {s after : State} {name : String} (recorded : s.Recorded name) (grows : Grows s after) :
    after.Recorded name := by
  obtain ⟨d, found⟩ := recorded
  exact ⟨d, grows.marks name d found⟩

theorem Noted.mono {s after : State} (noted : Noted s p) (grows : Grows s after) : Noted after p :=
  fun n member once => (noted n member once).mono grows

theorem Ledger.congr {s after : State} (ledger : Ledger g s) (marks : after.cleanVisits = s.cleanVisits)
    (joins : after.passedJoins = s.passedJoins) : Ledger g after := by
  refine ⟨fun name d found => ?_, fun name member => ?_⟩
  · rw [marks] at found
    obtain ⟨e, recorded⟩ := ledger.decisions name d found
    exact ⟨e, by rw [marks, recorded]⟩
  · obtain ⟨f, j, closes, named, e, recorded⟩ := ledger.owners name (joins ▸ member)
    exact ⟨f, j, closes, named, e, by rw [marks, recorded]⟩

theorem leave_records (s : State) (undo : Undo) :
    (s.leave undo).cleanVisits = s.cleanVisits ∧ (s.leave undo).passedJoins = s.passedJoins := by
  cases undo <;> exact ⟨rfl, rfl⟩

theorem grows_leave (s : State) (undo : Undo) : Grows s (s.leave undo) := by
  obtain ⟨marks, joins⟩ := leave_records s undo
  exact ⟨fun name d found => by rw [marks, found], by rw [joins]; exact fun _ member => member⟩

/-! ### Entering a node -/

theorem Marks.lookup {marks : List (String × Option String)} (marked : Marks s v n marks) (name : String)
    (d : Option String) : s.cleanVisits.lookup name = some d → marks.lookup name = some d := by
  intro found
  cases marked with
  | skipped _ => exact found
  | again _ _ _ _ => exact found
  | first _ _ fresh =>
    rw [List.lookup_cons]
    split
    · rename_i same
      rw [beq_iff_eq.mp same, fresh] at found
      cases found
    · exact found

theorem Marks.recorded {marks : List (String × Option String)} (marked : Marks s v n marks)
    (clean : v.clean = true) (once : runsOnce n = true) : ∃ d, marks.lookup n.name = some d := by
  cases marked with
  | skipped exempt => exact absurd ⟨clean, once⟩ exempt
  | first _ _ _ => exact ⟨v.decision, List.lookup_cons_self⟩
  | @again _ _ d earlier _ => exact ⟨some d, earlier⟩

/-- What entering a node records. -/
theorem enter_records (entered : enter g s v n = .ok (visits, undo, inner)) :
    Marks s v n inner.cleanVisits ∧ (inner.passedJoins = s.passedJoins ∨
      n.kind = .join ∧ staysClean s n v.clean = true ∧ s.forks ≠ [] ∧ inner.passedJoins = n.name :: s.passedJoins) := by
  obtain ⟨marks, marked, shifts, _⟩ := enter_cases entered
  cases shifts with
  | plain _ _ _ => exact ⟨marked, .inl rfl⟩
  | fork _ => exact ⟨marked, .inl rfl⟩
  | join isJoin opened _ =>
    refine ⟨marked, ?_⟩
    dsimp only at opened ⊢
    split
    · rename_i still
      exact .inr ⟨isJoin, still, by simp [opened], rfl⟩
    · exact .inl rfl

theorem grows_enter (entered : enter g s v n = .ok (visits, undo, inner)) : Grows s inner := by
  obtain ⟨marked, joins⟩ := enter_records entered
  refine ⟨marked.lookup, ?_⟩
  rcases joins with same | ⟨_, _, _, more⟩
  · rw [same]
    exact fun _ member => member
  · rw [more]
    exact fun _ member => List.mem_cons_of_mem _ member

theorem exists_firstDecision {q p : List Node} {d : String} (undecided : firstDecision p = none)
    (decision : firstDecision (q ++ p) = some d) :
    ∃ above n below, q = above ++ n :: below ∧ n.kind = .decision ∧ n.name = d ∧ firstDecision (below ++ p) = none := by
  induction q with
  | nil => rw [List.nil_append, undecided] at decision; cases decision
  | cons n q ih =>
    rw [List.cons_append, firstDecision, decisionAfter] at decision
    cases before : firstDecision (q ++ p) with
    | some e =>
      have same : e = d := by
        rw [before] at decision
        split at decision <;> simpa using decision
      obtain ⟨above, m, below, rfl, facts⟩ := ih (same ▸ before)
      exact ⟨n :: above, m, below, rfl, facts⟩
    | none =>
      rw [before] at decision
      split at decision
      · rename_i isDecision
        exact ⟨[], n, q, rfl, isDecision, by simpa using decision, before⟩
      · cases decision

theorem ledger_enter (position : At s p) (along : v.Continues g p) (found : resolve g s v = .ok n)
    (entered : enter g s v n = .ok (visits, undo, inner)) (ledger : Ledger g s) (noted : v.clean = true → Noted s p) :
    Ledger g inner := by
  have grows := grows_enter entered
  obtain ⟨marked, joins⟩ := enter_records entered
  refine ⟨?_, ?_⟩
  · intro name d recorded
    generalize inner.cleanVisits = marks at marked recorded
    cases marked with
    | skipped _ => exact (ledger.decisions name d recorded).mono grows
    | again _ _ _ _ => exact (ledger.decisions name d recorded).mono grows
    | first clean _ _ =>
      rw [List.lookup_cons] at recorded
      split at recorded
      · -- The first decision lies on the trail, which is recorded for a clean visit.
        have decision : firstDecision (p ++ []) = some d := by
          rw [List.append_nil, ← along.decision]
          exact Option.some.inj recorded
        obtain ⟨above, m, below, rfl, isDecision, rfl, _⟩ := exists_firstDecision rfl decision
        exact (noted clean m (by simp) (by simp [runsOnce, isDecision])).mono grows
      · exact (ledger.decisions name d recorded).mono grows
  · intro name member
    rcases joins with same | ⟨isJoin, still, inside, more⟩
    · obtain ⟨f, j, closes, named, recorded⟩ := ledger.owners name (same ▸ member)
      exact ⟨f, j, closes, named, recorded.mono grows⟩
    · rw [more] at member
      rcases List.mem_cons.mp member with rfl | member
      · have clean := staysClean_le still
        have trail := along.clean clean n (target_of_resolve found)
        cases opened : openForks p with
        | nil =>
          rw [position.forks, opened] at inside
          exact absurd rfl inside
        | cons f rest =>
          rw [← List.nil_append (f :: rest)] at opened
          obtain ⟨q, before, rfl, isFork, shut, closed, _⟩ := openForks_split opened
          exact ⟨f, n, ⟨q, before, trail, isFork, isJoin, shut, closed⟩, rfl,
            (noted clean f (by simp) (by simp [runsOnce, isFork])).mono grows⟩
      · obtain ⟨f, j, closes, named, recorded⟩ := ledger.owners name member
        exact ⟨f, j, closes, named, recorded.mono grows⟩

/-! ### Walks -/

theorem Walks.grows (walks : Walks g p s visits entries final) :
    Grows s final ∧ ∀ e ∈ entries, Grows s e.state := by
  induction walks with
  | @done _ s => exact ⟨.refl s, fun _ member => (nomatch member)⟩
  | @visit p s inner last final v visits rest n undo below after found entered _ _ ihInside ihOnward =>
    have enters := grows_enter entered
    have leaves := (enters.trans ihInside.1).trans (grows_leave last undo)
    refine ⟨leaves.trans ihOnward.1, fun e member => ?_⟩
    rcases mem_entries member with rfl | member | member
    · exact .refl s
    · exact enters.trans (ihInside.2 e member)
    · exact leaves.trans (ihOnward.2 e member)

/-- What is entered cleanly and may run once only is recorded in the end. -/
theorem Walks.recorded (walks : Walks g p s visits entries final) :
    ∀ e ∈ entries, e.visit.clean = true → runsOnce e.node = true → final.Recorded e.node.name := by
  induction walks with
  | done => intro e member; cases member
  | @visit p s inner last final v visits rest n undo below after found entered inside onward ihInside ihOnward =>
    intro e member clean once
    have leaves := (grows_leave last undo).trans onward.grows.1
    rcases mem_entries member with rfl | member | member
    · have here : inner.Recorded n.name := (enter_records entered).1.recorded clean once
      exact here.mono (inside.grows.1.trans leaves)
    · exact (ihInside e member clean once).mono leaves
    · exact ihOnward e member clean once

theorem clean_of_later (entered : enter g s v n = .ok (visits, undo, inner)) {w : Visit} (later : w ∈ visits)
    (clean : w.clean = true) : v.clean = true := by
  obtain ⟨_, _, _, rfl⟩ := enter_cases entered
  obtain ⟨exit, _, rfl⟩ := List.mem_map.mp later
  exact staysClean_le ((Bool.and_eq_true _ _).mp clean).1

theorem noted_enter (entered : enter g s v n = .ok (visits, undo, inner)) (noted : v.clean = true → Noted s p) :
    ∀ w ∈ visits, w.clean = true → Noted inner (n :: p) := by
  intro w later clean m member once
  have before := clean_of_later entered later clean
  rcases List.mem_cons.mp member with rfl | member
  · exact (enter_records entered).1.recorded before once
  · exact (noted before m member once).mono (grows_enter entered)

/-- Where a walk stands: on a trail that its state and its visits fit to, with all that is recorded. -/
structure Stage (g : Graph) (p : List Node) (s : State) (visits : List Visit) : Prop where
  position : At s p
  along : ∀ v ∈ visits, v.Continues g p
  ledger : Ledger g s
  /-- What lies on the way to a clean visit is recorded. -/
  noted : ∀ v ∈ visits, v.clean = true → Noted s p

theorem Stage.sub {visits part : List Visit} (stage : Stage g p s visits) (sub : part ⊆ visits) :
    Stage g p s part :=
  ⟨stage.position, fun v member => stage.along v (sub member), stage.ledger, fun v member => stage.noted v (sub member)⟩

theorem Stage.enter {rest visits : List Visit} (stage : Stage g p s (v :: rest)) (found : resolve g s v = .ok n)
    (entered : enter g s v n = .ok (visits, undo, inner)) : Stage g (n :: p) inner visits := by
  have along := stage.along v (List.mem_cons_self ..)
  have noted := stage.noted v (List.mem_cons_self ..)
  exact ⟨at_enter stage.position entered, continues_of_enter along found entered,
    ledger_enter stage.position along found entered stage.ledger noted, noted_enter entered noted⟩

/-- A walk stands well before each of its entries, and in the end. -/
theorem Walks.stage (walks : Walks g p s visits entries final) (stage : Stage g p s visits) :
    Ledger g final ∧ ∀ e ∈ entries, Stage g e.trail e.state [e.visit] := by
  induction walks with
  | done => exact ⟨stage.ledger, fun _ member => (nomatch member)⟩
  | @visit p s inner last final v visits rest n undo below after found entered inside onward ihInside ihOnward =>
    obtain ⟨lastLedger, within⟩ := ihInside (stage.enter found entered)
    obtain ⟨marks, joins⟩ := leave_records last undo
    have grows := ((grows_enter entered).trans inside.grows.1).trans (grows_leave last undo)
    have later : Stage g p (last.leave undo) rest :=
      ⟨at_leave stage.position entered inside, fun w later => stage.along w (List.mem_cons_of_mem _ later),
        lastLedger.congr marks joins,
        fun w later clean => (stage.noted w (List.mem_cons_of_mem _ later) clean).mono grows⟩
    obtain ⟨finalLedger, beyond⟩ := ihOnward later
    refine ⟨finalLedger, fun e member => ?_⟩
    rcases mem_entries member with rfl | member | member
    · exact stage.sub (by simp)
    · exact within e member
    · exact beyond e member

/-- A walk over more visits is a walk over the first ones, then one over the others. -/
theorem Walks.divide {first others : List Visit} (walks : Walks g p s (first ++ others) entries final)
    (stage : Stage g p s (first ++ others)) :
    ∃ left right mid, Walks g p s first left mid ∧ Walks g p mid others right final ∧ Stage g p mid others := by
  have split : ∃ left right mid, Walks g p s first left mid ∧ Walks g p mid others right final := by
    clear stage
    induction first generalizing s entries with
    | nil => exact ⟨[], entries, s, .done, walks⟩
    | cons v first ih =>
      cases walks with
      | visit found entered inside onward =>
        obtain ⟨left, right, mid, before, after⟩ := ih onward
        exact ⟨_, right, mid, .visit found entered inside before, after⟩
  obtain ⟨left, right, mid, before, after⟩ := split
  have grows := before.grows.1
  refine ⟨left, right, mid, before, after, before.at stage.position, ?_, ?_, ?_⟩
  · exact fun v member => stage.along v (List.mem_append_right _ member)
  · exact (before.stage (stage.sub (List.subset_append_left ..))).1
  · exact fun v member clean => (stage.noted v (List.mem_append_right _ member) clean).mono grows

theorem enter_passed_cases (entered : enter g s v n = .ok (visits, undo, inner)) {name : String}
    (member : name ∈ inner.passedJoins) :
    name ∈ s.passedJoins ∨ n.name = name ∧ n.kind = .join ∧ staysClean s n v.clean = true := by
  rcases (enter_records entered).2 with same | ⟨isJoin, still, _, more⟩
  · exact .inl (same ▸ member)
  · rw [more] at member
    rcases List.mem_cons.mp member with rfl | member
    · exact .inr ⟨rfl, isJoin, still⟩
    · exact .inl member

/-- A join that was passed was passed before the walk or at one of its entries. -/
theorem Walks.passed (walks : Walks g p s visits entries final) {name : String} (member : name ∈ final.passedJoins) :
    name ∈ s.passedJoins ∨ ∃ e₀ ∈ entries, e₀.node.name = name ∧ e₀.Passes := by
  induction walks with
  | done => exact .inl member
  | @visit p s inner last final v visits rest n undo below after found entered inside onward ihInside ihOnward =>
    rcases ihOnward member with member | ⟨e₀, listed, facts⟩
    · rw [(leave_records last undo).2] at member
      rcases ihInside member with member | ⟨e₀, listed, facts⟩
      · refine (enter_passed_cases entered member).imp_right fun facts => ?_
        exact ⟨_, List.mem_cons_self .., facts⟩
      · exact .inr ⟨e₀, List.mem_cons_of_mem _ (List.mem_append_left _ listed), facts⟩
    · exact .inr ⟨e₀, List.mem_cons_of_mem _ (List.mem_append_right _ listed), facts⟩

/-- A join that was passed when an entry was made was passed before the walk or at an entry that came earlier. -/
theorem Walks.passed_before (walks : Walks g p s visits entries final) {e : Entry} (listed : e ∈ entries) {name : String}
    (passed : name ∈ e.state.passedJoins) :
    name ∈ s.passedJoins ∨ ∃ e₀, [e₀, e].Sublist entries ∧ e₀.node.name = name ∧ e₀.Passes := by
  induction walks with
  | done => cases listed
  | @visit p s inner last final v visits rest n undo below after found entered inside onward ihInside ihOnward =>
    -- The entry is the first one, or made below it, or made after it has been left.
    rcases mem_entries listed with rfl | member | member
    · exact .inl passed
    · rcases ihInside member with passed | ⟨e₀, earlier, facts⟩
      · refine (enter_passed_cases entered passed).imp_right fun facts => ⟨⟨n, p, s, v⟩, ?_, facts⟩
        exact (List.singleton_sublist.mpr (List.mem_append_left _ member)).cons_cons _
      · exact .inr ⟨e₀, (earlier.trans (List.sublist_append_left below after)).cons _, facts⟩
    · rcases ihOnward member with passed | ⟨e₀, earlier, facts⟩
      · rw [(leave_records last undo).2] at passed
        have later : [e].Sublist after := List.singleton_sublist.mpr member
        rcases inside.passed passed with passed | ⟨e₀, before, facts⟩
        · refine (enter_passed_cases entered passed).imp_right fun facts => ⟨⟨n, p, s, v⟩, ?_, facts⟩
          exact (later.trans (List.sublist_append_right below after)).cons_cons _
        · exact .inr ⟨e₀, ((List.singleton_sublist.mpr before).append later).cons _, facts⟩
      · exact .inr ⟨e₀, (earlier.trans (List.sublist_append_right below after)).cons _, facts⟩

/-- Every entry comes from one of the visits, and cleanly only from a clean one. -/
theorem Walks.branch (walks : Walks g p s visits entries final) :
    ∀ e ∈ entries, ∃ v ∈ visits, (∃ n q, v.target.bind g.find? = some n ∧ e.node :: e.trail = q ++ n :: p) ∧
      (e.visit.clean = true → v.clean = true) := by
  induction walks with
  | done => intro e member; cases member
  | @visit p s inner last final v visits rest n undo below after found entered inside onward ihInside ihOnward =>
    intro e member
    have target := target_of_resolve found
    rcases mem_entries member with rfl | member | member
    · exact ⟨v, List.mem_cons_self .., ⟨n, [], target, rfl⟩, id⟩
    · obtain ⟨w, later, _, clean⟩ := ihInside e member
      obtain ⟨q, whole⟩ := inside.suffix e member
      exact ⟨v, List.mem_cons_self .., ⟨n, e.node :: q, target, by rw [← whole, List.cons_append]⟩,
        fun cleanly => clean_of_later entered later (clean cleanly)⟩
    · obtain ⟨w, later, facts⟩ := ihOnward e member
      exact ⟨w, List.mem_cons_of_mem _ later, facts⟩

/-- Whatever lies between the beginning of a walk and an entry was entered on the way there. -/
theorem Walks.ancestor (walks : Walks g p s visits entries final) :
    ∀ e ∈ entries, ∀ above k below, e.trail = (above ++ k :: below) ++ p →
      ∃ e' ∈ entries, e'.node = k ∧ e'.trail = below ++ p ∧ (e.visit.clean = true → e'.visit.clean = true) := by
  induction walks with
  | done => intro e member; cases member
  | @visit p s inner last final v visits rest n undo inner' after found entered inside onward ihInside ihOnward =>
    intro e member above k below split
    rcases mem_entries member with rfl | within | beyond
    · have length := congrArg List.length split
      simp only [List.length_append, List.length_cons] at length
      omega
    · obtain ⟨q, same, whole⟩ := stretch_below (inside.suffix e within) split
      rcases List.eq_nil_or_concat below with rfl | ⟨below, m, rfl⟩
      · obtain ⟨_, only⟩ := List.append_inj' same rfl
        obtain rfl := List.head_eq_of_cons_eq only
        refine ⟨⟨k, p, s, v⟩, List.mem_cons_self .., rfl, rfl, fun clean => ?_⟩
        obtain ⟨w, later, _, cleanly⟩ := inside.branch e within
        exact clean_of_later entered later (cleanly clean)
      · have same' : (above ++ k :: below) ++ [m] = q ++ [n] := by simpa using same
        obtain ⟨rfl, only⟩ := List.append_inj' same' rfl
        obtain rfl := List.head_eq_of_cons_eq only
        obtain ⟨e', listed, node, trail, clean⟩ := ihInside e within above k below whole
        exact ⟨e', List.mem_cons_of_mem _ (List.mem_append_left _ listed), node, by simp [trail], clean⟩
    · obtain ⟨e', listed, facts⟩ := ihOnward e beyond above k below split
      exact ⟨e', List.mem_cons_of_mem _ (List.mem_append_right _ listed), facts⟩

theorem Walks.marks (walks : Walks g p s visits entries final) {e : Entry} (member : e ∈ entries) :
    ∃ marks, Marks e.state e.visit e.node marks := by
  obtain ⟨_, _, _, _, _, entered, _⟩ := walks.inside member
  exact ⟨_, (enter_records entered).1⟩

/-- After a trail without decisions, what is entered cleanly was not recorded before: neither the first
    decision on the way there nor anything recorded with it. -/
theorem Walks.fresh (walks : Walks g p s visits entries final) (stage : Stage g p s visits)
    (undecided : firstDecision p = none) :
    ∀ e ∈ entries, e.visit.clean = true → runsOnce e.node = true → ¬ s.Recorded e.node.name := by
  have proper := walks.proper stage.position stage.along
  have plain : ∀ e ∈ entries, e.visit.clean = true → runsOnce e.node = true → e.visit.decision = none →
      ¬ s.Recorded e.node.name := by
    rintro e member clean once none ⟨d, recorded⟩
    have still := (walks.grows.2 e member).marks _ d recorded
    obtain ⟨marks, marked⟩ := walks.marks member
    cases marked with
    | skipped exempt => exact exempt ⟨clean, once⟩
    | first _ _ fresh => rw [fresh] at still; cases still
    | again _ _ _ same => rw [none] at same; cases same
  rintro e member clean once ⟨d, recorded⟩
  have still := (walks.grows.2 e member).marks _ d recorded
  obtain ⟨marks, marked⟩ := walks.marks member
  cases marked with
  | skipped exempt => exact exempt ⟨clean, once⟩
  | first _ _ fresh => rw [fresh] at still; cases still
  | @again _ _ name earlier same =>
    -- The shared decision lies on the way, so it is new; but it was recorded with the node.
    rw [earlier] at still
    obtain rfl := Option.some.inj still
    obtain ⟨q, split⟩ := walks.suffix e member
    have decision := (proper e member).along.decision
    rw [same, ← split] at decision
    obtain ⟨above, k, below, rfl, isDecision, rfl, none⟩ := exists_firstDecision undecided decision.symm
    obtain ⟨e', member', node, trail, cleanly⟩ := walks.ancestor e member above k below split.symm
    refine plain e' member' (cleanly clean) (by simp [node, runsOnce, isDecision]) ?_ ?_
    · rw [(proper e' member').along.decision, trail, none]
    · rw [node]
      exact stage.ledger.decisions _ _ recorded

end WorkflowCompiler.ForkJoin
