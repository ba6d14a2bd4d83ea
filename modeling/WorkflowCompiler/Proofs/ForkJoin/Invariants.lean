import WorkflowCompiler.Proofs.ForkJoin.Walks

/-!
Invariants of the walk over all paths. What holds of the state and the visits that are
left holds inside a node and after it (`Maintained`); then it holds at the end of a walk
that succeeds, and where a fault arises in one that fails. The state always belongs to
the trail that the walk has come along (`maintained_along`).
-/
namespace WorkflowCompiler.ForkJoin

/-- What is kept where a node is entered, and where it is left after all that comes after it. -/
structure Maintained (g : Graph) (I : List Node → State → List Visit → Prop) : Prop where
  inside : ∀ {p s v rest n visits undo inner}, I p s (v :: rest) → resolve g s v = .ok n →
    enter g s v n = .ok (visits, undo, inner) → I (n :: p) inner visits
  onward : ∀ {p s v rest n visits undo inner below last}, I p s (v :: rest) → resolve g s v = .ok n →
    enter g s v n = .ok (visits, undo, inner) → Walks g (n :: p) inner visits below last → I (n :: p) last [] →
    I p (last.leave undo) rest

variable {g : Graph} {I : List Node → State → List Visit → Prop} {p : List Node} {s final : State}
  {visits : List Visit} {entries : List Entry} {fault : Fault}

theorem Maintained.walks (maintained : Maintained g I) (walks : Walks g p s visits entries final)
    (here : I p s visits) : I p final [] := by
  induction walks with
  | done => exact here
  | visit found entered inside _ ihInside ihOnward =>
    exact ihOnward (maintained.onward here found entered inside (ihInside (maintained.inside here found entered)))

/-- A fault arises at a visit where all that is maintained holds. -/
theorem Maintained.fails (maintained : Maintained g I) (fails : Fails g p s visits fault) (here : I p s visits) :
    ∃ q after v rest, I q after (v :: rest) ∧ (resolve g after v = .error fault ∨
      ∃ n, resolve g after v = .ok n ∧ enter g after v n = .error fault) := by
  induction fails with
  | @lost p s v rest fault lost => exact ⟨p, s, v, rest, here, .inl lost⟩
  | @refused p s v rest n fault found refused => exact ⟨p, s, v, rest, here, .inr ⟨n, found, refused⟩⟩
  | inside found entered _ ih => exact ih (maintained.inside here found entered)
  | onward found entered inside _ ih =>
    have last := maintained.walks inside (maintained.inside here found entered)
    exact ih (maintained.onward here found entered inside last)

/-- The state has come along the trail of the walk, and the visits go on from there. -/
structure Along (g : Graph) (p : List Node) (s : State) (visits : List Visit) : Prop where
  position : At s p
  continues : ∀ v ∈ visits, v.Continues g p

theorem maintained_along (g : Graph) : Maintained g (Along g) where
  inside here found entered :=
    ⟨at_enter here.position entered, continues_of_enter (here.continues _ (List.mem_cons_self ..)) found entered⟩
  onward here _ entered walks _ :=
    ⟨at_leave here.position entered walks, fun w later => here.continues w (List.mem_cons_of_mem _ later)⟩

theorem along_start {start : Node} (first : g.start? = some start) : Along g [] {} [⟨some start.name, true, none⟩] :=
  ⟨at_start, continues_start first⟩

/-- The node that is visited next lies on a trail. -/
theorem Along.trail {v : Visit} {rest : List Visit} {n : Node} (along : Along g p s (v :: rest))
    (found : resolve g s v = .ok n) : g.Trail g.Leads (n :: p) :=
  (along.continues v (List.mem_cons_self ..)).leads n (target_of_resolve found)

end WorkflowCompiler.ForkJoin
