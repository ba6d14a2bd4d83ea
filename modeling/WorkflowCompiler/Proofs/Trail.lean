import Mathlib.Data.List.Nodup
import Mathlib.Logic.Relation
import WorkflowCompiler.Graph.Structure

/-!
Trails: the ways through a graph from its start node. A trail is written from
its last node back to the start, as the path of a walk is. A node is reached by
a trail exactly if it can be reached (`reachable_iff_trail`). Along a trail the
joins close the forks before them like brackets: `openForks` lists the forks
that are still open, innermost first, and `strayJoins` counts the joins that
close nothing. Both depend on a stretch of a trail only through the forks it
leaves open and the joins that it leaves without a fork (`openForks_append`).
-/
namespace WorkflowCompiler

/-- The transitions that a node takes when it succeeds. -/
def Node.successTransitions (n : Node) : List String :=
  match n.body with
  | .action ok _ _ => [ok]
  | _ => n.transitions

namespace Graph

/-- A node leads to the nodes that its transitions name. Nothing comes after end and kill nodes. -/
def Leads (g : Graph) (m n : Node) : Prop :=
  Structure.isTerminal m = false ∧ ∃ t ∈ m.transitions, g.find? t = some n

/-- A node leads to another one without an error. -/
def Succeeds (g : Graph) (m n : Node) : Prop :=
  Structure.isTerminal m = false ∧ ∃ t ∈ m.successTransitions, g.find? t = some n

/-- A node that some way from the start node leads to. -/
def Reachable (g : Graph) (n : Node) : Prop :=
  ∃ s, g.start? = some s ∧ Relation.ReflTransGen g.Leads s n

/-- The nodes of a way from the start node, the last one first. -/
inductive Trail (g : Graph) (step : Node → Node → Prop) : List Node → Prop
  | start {n : Node} (first : g.start? = some n) : Trail g step [n]
  | next {m n : Node} {p : List Node} (before : Trail g step (m :: p)) (onward : step m n) :
      Trail g step (n :: m :: p)

/-- Start and join nodes have exactly one transition. -/
def SingleExit (g : Graph) : Prop :=
  ∀ n ∈ g.nodes, n.kind = .start ∨ n.kind = .join → n.transitions.length = 1

instance (g : Graph) : Decidable g.SingleExit :=
  inferInstanceAs (Decidable (∀ n ∈ g.nodes, _))

theorem eq_of_name_eq {g : Graph} {m n : Node} (left : m ∈ g.nodes) (right : n ∈ g.nodes)
    (same : m.name = n.name) : m = n :=
  List.inj_on_of_nodup_map g.distinct left right same

theorem find?_of_mem {g : Graph} {n : Node} (member : n ∈ g.nodes) : g.find? n.name = some n := by
  obtain ⟨m, found⟩ : ∃ m, g.find? n.name = some m := by
    cases h : g.find? n.name with
    | some m => exact ⟨m, rfl⟩
    | none => exact absurd (List.mem_map_of_mem member) (find?_eq_none_iff.mp h)
  rw [found, eq_of_name_eq (mem_of_find? found) member (name_of_find? found)]

/-- Nodes of a graph are told apart by their names. -/
theorem eq_of_names_eq {g : Graph} {p q : List Node} (left : ∀ n ∈ p, n ∈ g.nodes) (right : ∀ n ∈ q, n ∈ g.nodes)
    (same : p.map Node.name = q.map Node.name) : p = q := by
  have found {l : List Node} (members : ∀ n ∈ l, n ∈ g.nodes) : (l.map Node.name).map g.find? = l.map some := by
    rw [List.map_map]
    exact List.map_congr_left fun n member => find?_of_mem (members n member)
  have nodes := congrArg (List.map g.find?) same
  rw [found left, found right] at nodes
  exact List.map_injective_iff.mpr (fun _ _ => Option.some.inj) nodes

theorem mem_of_start? {g : Graph} {s : Node} (first : g.start? = some s) : s ∈ g.nodes :=
  List.mem_reverse.mp (List.mem_of_find?_eq_some first)

theorem kind_of_start? {g : Graph} {s : Node} (first : g.start? = some s) : s.kind = .start := by
  simpa using List.find?_some first

theorem Leads.mem {g : Graph} {m n : Node} (leads : g.Leads m n) : n ∈ g.nodes := by
  obtain ⟨_, t, _, found⟩ := leads
  exact mem_of_find? found

theorem Succeeds.leads {g : Graph} {m n : Node} (succeeds : g.Succeeds m n) : g.Leads m n := by
  obtain ⟨going, t, member, found⟩ := succeeds
  refine ⟨going, t, ?_, found⟩
  cases h : m.body with
  | action ok error spec => simp_all [Node.successTransitions, Node.transitions]
  | _ => simpa [Node.successTransitions, h] using member

namespace Trail
variable {g : Graph} {step : Node → Node → Prop}

theorem mono {other : Node → Node → Prop} (sub : ∀ m n, step m n → other m n) {p : List Node}
    (trail : g.Trail step p) : g.Trail other p := by
  induction trail with
  | start first => exact .start first
  | next _ onward ih => exact .next ih (sub _ _ onward)

theorem leads {p : List Node} (trail : g.Trail g.Succeeds p) : g.Trail g.Leads p :=
  trail.mono fun _ _ => Succeeds.leads

theorem before {q : List Node} {n : Node} {p : List Node} (trail : g.Trail step (q ++ n :: p)) :
    g.Trail step (n :: p) := by
  induction q with
  | nil => exact trail
  | cons m q ih =>
    cases q with
    | nil => cases trail with | next before _ => exact before
    | cons k q => cases trail with | next before _ => exact ih before

/-- What follows a node does not depend on how the node was reached. -/
theorem splice {q : List Node} {n : Node} {p other : List Node} (trail : g.Trail step (q ++ n :: p))
    (arrival : g.Trail step (n :: other)) : g.Trail step (q ++ n :: other) := by
  induction q with
  | nil => exact arrival
  | cons m q ih =>
    cases q with
    | nil => cases trail with | next _ onward => exact .next arrival onward
    | cons k q => cases trail with | next before onward => exact .next (ih before) onward

theorem mem {p : List Node} (trail : g.Trail g.Leads p) : ∀ n ∈ p, n ∈ g.nodes := by
  induction trail with
  | start first =>
    intro n member
    rw [List.mem_singleton.mp member]
    exact mem_of_start? first
  | next _ onward ih =>
    intro n member
    rcases List.mem_cons.mp member with rfl | member
    · exact onward.mem
    · exact ih n member

/-- Every node of a trail leads on to its last one. -/
theorem transGen {n : Node} {p : List Node} (trail : g.Trail g.Leads (n :: p)) :
    ∀ m ∈ p, Relation.TransGen g.Leads m n := by
  induction p generalizing n with
  | nil => intro m member; cases member
  | cons k p ih =>
    cases trail with
    | next before onward =>
      intro m member
      rcases List.mem_cons.mp member with rfl | member
      · exact .single onward
      · exact (ih before m member).tail onward

/-- A trail comes from the start node. -/
theorem origin {s : Node} (first : g.start? = some s) {p : List Node} (trail : g.Trail step p) :
    ∃ q, p = q ++ [s] := by
  induction trail with
  | start first' =>
    rw [first] at first'
    cases first'
    exact ⟨[], rfl⟩
  | @next _ n _ _ _ ih =>
    obtain ⟨q, same⟩ := ih
    exact ⟨n :: q, by rw [same, List.cons_append]⟩

end Trail

theorem Reachable.mem {g : Graph} {n : Node} (reachable : g.Reachable n) : n ∈ g.nodes := by
  obtain ⟨s, first, path⟩ := reachable
  cases path with
  | refl => exact mem_of_start? first
  | tail _ onward => exact onward.mem

theorem Reachable.tail {g : Graph} {m n : Node} (reachable : g.Reachable m) (onward : g.Leads m n) :
    g.Reachable n := by
  obtain ⟨s, first, path⟩ := reachable
  exact ⟨s, first, path.tail onward⟩

/-- The nodes that can be reached are the last nodes of trails. -/
theorem reachable_iff_trail {g : Graph} {n : Node} : g.Reachable n ↔ ∃ p, g.Trail g.Leads (n :: p) := by
  constructor
  · rintro ⟨s, first, path⟩
    induction path with
    | refl => exact ⟨[], .start first⟩
    | @tail m k _ onward ih =>
      obtain ⟨p, trail⟩ := ih
      exact ⟨m :: p, .next trail onward⟩
  · rintro ⟨p, trail⟩
    induction p generalizing n with
    | nil => cases trail with | start first => exact ⟨n, first, .refl⟩
    | cons m p ih => cases trail with | next before onward => exact (ih before).tail onward

theorem Trail.reachable {g : Graph} {p : List Node} (trail : g.Trail g.Leads p) : ∀ n ∈ p, g.Reachable n := by
  intro n member
  obtain ⟨q, rest, rfl⟩ := List.append_of_mem member
  exact reachable_iff_trail.mpr ⟨rest, trail.before⟩

theorem trail_iff {g : Graph} {step : Node → Node → Prop} {p : List Node} :
    g.Trail step p ↔ p.IsChain (fun n m => step m n) ∧ p ≠ [] ∧ p.getLast? = g.start? := by
  constructor
  · intro trail
    induction trail with
    | start first => exact ⟨.singleton _, List.cons_ne_nil _ _, by rw [first, List.getLast?_singleton]⟩
    | next _ onward ih =>
      exact ⟨List.isChain_cons_cons.mpr ⟨onward, ih.1⟩, List.cons_ne_nil _ _, by rw [List.getLast?_cons_cons, ih.2.2]⟩
  · rintro ⟨chain, some, first⟩
    induction p with
    | nil => exact absurd rfl some
    | cons n p ih =>
      cases p with
      | nil => exact .start (by rw [← first, List.getLast?_singleton])
      | cons m p =>
        obtain ⟨onward, chain⟩ := List.isChain_cons_cons.mp chain
        exact .next (ih chain (List.cons_ne_nil _ _) (by rw [← first, List.getLast?_cons_cons])) onward

instance (g : Graph) (m n : Node) : Decidable (g.Leads m n) :=
  inferInstanceAs (Decidable (_ ∧ _))

instance (g : Graph) (m n : Node) : Decidable (g.Succeeds m n) :=
  inferInstanceAs (Decidable (_ ∧ _))

instance (g : Graph) (p : List Node) : Decidable (g.Trail g.Leads p) :=
  decidable_of_iff _ trail_iff.symm

instance (g : Graph) (p : List Node) : Decidable (g.Trail g.Succeeds p) :=
  decidable_of_iff _ trail_iff.symm

/-- Without cycles no trail meets a node twice. -/
theorem Trail.nodup {g : Graph} (acyclic : ∀ n, g.Reachable n → ¬ Relation.TransGen g.Leads n n)
    {p : List Node} (trail : g.Trail g.Leads p) : p.Nodup := by
  induction p with
  | nil => exact List.nodup_nil
  | cons n p ih =>
    have fresh : n ∉ p := fun member =>
      acyclic n (trail.reachable n (List.mem_cons_self ..)) (trail.transGen n member)
    cases p with
    | nil => simp
    | cons m p => exact List.nodup_cons.mpr ⟨fresh, ih (trail.before (q := [n]))⟩

end Graph

/-! ### Forks and joins as brackets -/

/-- The forks that no later join closes, innermost first. -/
def openForks : List Node → List Node
  | [] => []
  | n :: p =>
    if n.kind = .fork then n :: openForks p
    else if n.kind = .join then (openForks p).tail
    else openForks p

/-- How many joins close no fork before them. -/
def strayJoins : List Node → Nat
  | [] => 0
  | n :: p => if n.kind = .join ∧ openForks p = [] then strayJoins p + 1 else strayJoins p

theorem openForks_fork {n : Node} (isFork : n.kind = .fork) (p : List Node) :
    openForks (n :: p) = n :: openForks p := by
  simp [openForks, isFork]

theorem openForks_join {n : Node} (isJoin : n.kind = .join) (p : List Node) :
    openForks (n :: p) = (openForks p).tail := by
  simp [openForks, isJoin]

theorem openForks_plain {n : Node} (notFork : n.kind ≠ .fork) (notJoin : n.kind ≠ .join) (p : List Node) :
    openForks (n :: p) = openForks p := by
  simp [openForks, notFork, notJoin]

theorem strayJoins_join {n : Node} (isJoin : n.kind = .join) (p : List Node) :
    strayJoins (n :: p) = if openForks p = [] then strayJoins p + 1 else strayJoins p := by
  simp [strayJoins, isJoin]

theorem strayJoins_other {n : Node} (notJoin : n.kind ≠ .join) (p : List Node) :
    strayJoins (n :: p) = strayJoins p := by
  simp [strayJoins, notJoin]

/-- A stretch of a trail closes as many of the forks before it as it has stray joins. -/
theorem openForks_append (q p : List Node) :
    openForks (q ++ p) = openForks q ++ (openForks p).drop (strayJoins q) := by
  induction q with
  | nil => simp [openForks, strayJoins]
  | cons n q ih =>
    by_cases isJoin : n.kind = .join
    · rw [List.cons_append, openForks_join isJoin, openForks_join isJoin, strayJoins_join isJoin, ih]
      cases openForks q with
      | nil => simp
      | cons f fs => simp
    · rw [strayJoins_other isJoin]
      by_cases isFork : n.kind = .fork
      · rw [List.cons_append, openForks_fork isFork, openForks_fork isFork, ih, List.cons_append]
      · rw [List.cons_append, openForks_plain isFork isJoin, openForks_plain isFork isJoin, ih]

theorem strayJoins_append (q p : List Node) :
    strayJoins (q ++ p) = strayJoins p + (strayJoins q - (openForks p).length) := by
  induction q with
  | nil => simp [strayJoins]
  | cons n q ih =>
    by_cases isJoin : n.kind = .join
    · rw [List.cons_append, strayJoins_join isJoin, strayJoins_join isJoin, ih, openForks_append]
      cases openForks q with
      | nil =>
        simp only [List.nil_append, List.drop_eq_nil_iff, ↓reduceIte]
        split <;> omega
      | cons f fs => simp
    · rw [List.cons_append, strayJoins_other isJoin, strayJoins_other isJoin, ih]

/-- The first join of a stretch that closes a fork before it. -/
theorem exists_stray {q : List Node} (stray : strayJoins q ≠ 0) :
    ∃ above k below, q = above ++ k :: below ∧ k.kind = .join ∧ openForks below = [] ∧ strayJoins below = 0 := by
  induction q with
  | nil => exact absurd rfl stray
  | cons n q ih =>
    by_cases earlier : strayJoins q = 0
    · by_cases closes : n.kind = .join ∧ openForks q = []
      · exact ⟨[], n, q, rfl, closes.1, closes.2, earlier⟩
      · rw [strayJoins, if_neg closes] at stray
        exact absurd earlier stray
    · obtain ⟨above, k, below, rfl, facts⟩ := ih earlier
      exact ⟨n :: above, k, below, rfl, facts⟩

/-- A fork that is open was opened on the trail, and what came after it closed only later forks. -/
theorem openForks_split {p fs rest : List Node} {f : Node} (opened : openForks p = fs ++ f :: rest) :
    ∃ q before, p = q ++ f :: before ∧ f.kind = .fork ∧ openForks q = fs ∧ strayJoins q = 0 ∧
      openForks before = rest := by
  induction p generalizing fs with
  | nil => simp [openForks] at opened
  | cons n p ih =>
    by_cases isFork : n.kind = .fork
    · rw [openForks_fork isFork] at opened
      cases fs with
      | nil =>
        obtain ⟨rfl, same⟩ := List.cons.inj opened
        exact ⟨[], p, rfl, isFork, rfl, rfl, same⟩
      | cons m fs =>
        obtain ⟨rfl, same⟩ := List.cons.inj opened
        obtain ⟨q, before, rfl, kind, inner, nested, outer⟩ := ih same
        refine ⟨n :: q, before, rfl, kind, ?_, ?_, outer⟩
        · rw [openForks_fork isFork, inner]
        · rw [strayJoins_other (by simp [isFork]), nested]
    · by_cases isJoin : n.kind = .join
      · rw [openForks_join isJoin] at opened
        obtain ⟨m, same⟩ : ∃ m, openForks p = (m :: fs) ++ f :: rest := by
          cases h : openForks p with
          | nil => simp [h] at opened
          | cons m ms => exact ⟨m, by rw [h] at opened; simpa using opened⟩
        obtain ⟨q, before, rfl, kind, inner, nested, outer⟩ := ih same
        refine ⟨n :: q, before, rfl, kind, ?_, ?_, outer⟩
        · rw [openForks_join isJoin, inner, List.tail_cons]
        · rw [strayJoins_join isJoin, inner, nested]; simp
      · rw [openForks_plain isFork isJoin] at opened
        obtain ⟨q, before, rfl, kind, inner, nested, outer⟩ := ih opened
        refine ⟨n :: q, before, rfl, kind, ?_, ?_, outer⟩
        · rw [openForks_plain isFork isJoin, inner]
        · rw [strayJoins_other isJoin, nested]

/-- On a trail a later join closes a fork, if what lies between them closes just what it opens. -/
def ClosedOn (p : List Node) (f : Node) : Prop :=
  ∃ above j between before, p = above ++ j :: between ++ f :: before ∧ j.kind = .join ∧ openForks between = [] ∧
    strayJoins between = 0

theorem openForks_sublist (p : List Node) : (openForks p).Sublist p := by
  induction p with
  | nil => exact .slnil
  | cons n p ih =>
    unfold openForks
    split
    · exact ih.cons_cons n
    · split
      · exact (List.tail_sublist _).trans (ih.cons n)
      · exact ih.cons n

/-- On a trail without repetition the open forks are those that no later join closes. -/
theorem mem_openForks_iff {p : List Node} (distinct : p.Nodup) {f : Node} :
    f ∈ openForks p ↔ f ∈ p ∧ f.kind = .fork ∧ ¬ ClosedOn p f := by
  constructor
  · intro member
    obtain ⟨fs, rest, opened⟩ := List.append_of_mem member
    obtain ⟨q, before, rfl, isFork, _, nested, _⟩ := openForks_split opened
    refine ⟨by simp, isFork, ?_⟩
    rintro ⟨above, j, between, before', split, isJoin, closed, _⟩
    have fresh : f ∉ q ++ before := (List.nodup_cons.mp (List.nodup_middle.mp distinct)).1
    rw [List.mem_append, not_or] at fresh
    obtain ⟨rfl, _, _⟩ := (List.append_cons_inj_of_notMem fresh.1 fresh.2).mp split
    rw [strayJoins_append, strayJoins_join isJoin, if_pos closed] at nested
    omega
  · rintro ⟨member, isFork, unclosed⟩
    obtain ⟨q, before, rfl⟩ := List.append_of_mem member
    have nested : strayJoins q = 0 := by
      by_contra stray
      obtain ⟨above, j, between, rfl, isJoin, closed, nested⟩ := exists_stray stray
      exact unclosed ⟨above, j, between, before, rfl, isJoin, closed, nested⟩
    rw [openForks_append, nested, List.drop_zero, openForks_fork isFork]
    simp

theorem openForks_eq_nil {p : List Node} (plain : ∀ n ∈ p, n.kind ≠ .fork) : openForks p = [] := by
  cases opened : openForks p with
  | nil => rfl
  | cons f rest =>
    rw [← List.nil_append (f :: rest)] at opened
    obtain ⟨q, before, rfl, isFork, _⟩ := openForks_split opened
    exact absurd isFork (plain f (by simp))

/-- Forks and joins of a trail, counted. -/
theorem countP_fork_add (p : List Node) :
    p.countP (·.kind = .fork) + strayJoins p = p.countP (·.kind = .join) + (openForks p).length := by
  induction p with
  | nil => simp [openForks, strayJoins]
  | cons n p ih =>
    by_cases isFork : n.kind = .fork
    · have notJoin : n.kind ≠ .join := by simp [isFork]
      rw [openForks_fork isFork, strayJoins_other notJoin, List.countP_cons_of_pos (by simpa using isFork),
        List.countP_cons_of_neg (by simpa using notJoin), List.length_cons]
      omega
    · by_cases isJoin : n.kind = .join
      · rw [openForks_join isJoin, strayJoins_join isJoin, List.countP_cons_of_neg (by simpa using isFork),
          List.countP_cons_of_pos (by simpa using isJoin)]
        cases h : openForks p with
        | nil => rw [h] at ih; simp at ih ⊢; omega
        | cons f fs => rw [h] at ih; simp at ih ⊢; omega
      · rw [openForks_plain isFork isJoin, strayJoins_other isJoin,
          List.countP_cons_of_neg (by simpa using isFork), List.countP_cons_of_neg (by simpa using isJoin)]
        exact ih

/-- A join closes a fork where a way from the one to the other closes just what it opens. -/
def Graph.Closes (g : Graph) (step : Node → Node → Prop) (f j : Node) : Prop :=
  ∃ q p, g.Trail step (j :: q ++ f :: p) ∧ f.kind = .fork ∧ j.kind = .join ∧ openForks q = [] ∧ strayJoins q = 0

theorem Graph.Closes.isFork {g : Graph} {step : Node → Node → Prop} {f j : Node} (closes : g.Closes step f j) :
    f.kind = .fork := by
  obtain ⟨_, _, _, isFork, _⟩ := closes
  exact isFork

theorem Graph.Closes.leads {g : Graph} {f j : Node} (closes : g.Closes g.Succeeds f j) : g.Closes g.Leads f j := by
  obtain ⟨q, p, trail, facts⟩ := closes
  exact ⟨q, p, trail.leads, facts⟩

theorem Graph.Closes.reachable {g : Graph} {f j : Node} (closes : g.Closes g.Leads f j) :
    g.Reachable f ∧ g.Reachable j := by
  obtain ⟨q, p, trail, _⟩ := closes
  exact ⟨trail.reachable f (by simp), trail.reachable j (by simp)⟩

end WorkflowCompiler
