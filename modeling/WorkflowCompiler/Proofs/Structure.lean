import Mathlib.Data.Set.Card
import WorkflowCompiler.Proofs.Trail

/-!
The structural walk is exact. It returns a report precisely for graphs that are
well formed (`WellFormed`): where every transition that is followed names a node,
no way leads back to where it came from, names are legal and actions are of types
that exist. The report then holds the forks and the joins that can be reached,
each once, and the number of nodes that can be reached. One invariant of the walk
(`Invariant`) carries both directions: the names that are done are closed under
transitions, each after the names it leads to, and the stack is a trail.
-/
namespace WorkflowCompiler

/-- A letter of the ASCII alphabet, or an underscore. -/
def NameStart (c : Char) : Prop := ('a' ≤ c ∧ c ≤ 'z') ∨ ('A' ≤ c ∧ c ≤ 'Z') ∨ c = '_'

/-- What a name goes on with: also digits and hyphens. -/
def NameChar (c : Char) : Prop := NameStart c ∨ ('0' ≤ c ∧ c ≤ '9') ∨ c = '-'

/-- The names a node can have. -/
structure LegalName (name : String) : Prop where
  form : ∃ c rest, name.toList = c :: rest ∧ NameStart c ∧ ∀ d ∈ rest, NameChar d
  short : name.length ≤ 128

/-- What the structural walk demands of everything that can be reached. -/
structure Graph.WellFormed (g : Graph) (r : Registry) : Prop where
  resolved : ∀ n, g.Reachable n → Structure.isTerminal n = false →
    ∀ t ∈ n.transitions, ∃ m, g.find? t = some m
  acyclic : ∀ n, g.Reachable n → ¬ Relation.TransGen g.Leads n n
  named : ∀ n, g.Reachable n → n.kind ≠ .start → LegalName n.name
  typed : ∀ n ok error spec, g.Reachable n → n.body = .action ok error spec →
    ∃ e, Markup.parse spec.conf = .ok e ∧ r.supports e.name = true

private theorem isAlpha_iff (c : Char) : c.isAlpha = true ↔ ('a' ≤ c ∧ c ≤ 'z') ∨ ('A' ≤ c ∧ c ≤ 'Z') := by
  have letters : c.isAlpha = (decide ('A'.val ≤ c.val ∧ c.val ≤ 'Z'.val) ||
      (decide ('a'.val ≤ c.val) && decide (c.val ≤ 'z'.val))) := rfl
  rw [letters, Bool.or_eq_true, Bool.and_eq_true, decide_eq_true_eq, decide_eq_true_eq, decide_eq_true_eq, or_comm]
  rfl

private theorem isDigit_iff (c : Char) : c.isDigit = true ↔ '0' ≤ c ∧ c ≤ '9' := by
  have digits : c.isDigit = (decide ('0'.val ≤ c.val) && decide (c.val ≤ '9'.val)) := rfl
  rw [digits, Bool.and_eq_true, decide_eq_true_eq, decide_eq_true_eq]
  rfl

private theorem nameStart_iff (c : Char) : isNodeNameStart c = true ↔ NameStart c := by
  rw [isNodeNameStart, NameStart, Bool.or_eq_true, isAlpha_iff, beq_iff_eq, or_assoc]

private theorem nameChar_iff (c : Char) : isNodeNameChar c = true ↔ NameChar c := by
  have alphanum : c.isAlphanum = (c.isAlpha || c.isDigit) := rfl
  rw [NameChar, NameStart, isNodeNameChar, alphanum]
  simp only [Bool.or_eq_true, beq_iff_eq, isAlpha_iff, isDigit_iff]
  tauto

private theorem units_nameChar {c : Char} (legal : NameChar c) : Text.unitsOfChar c = 1 := by
  have small : c.toNat < 0x10000 := by
    have lift : ∀ d : Char, c ≤ d → c.toNat ≤ d.toNat := fun d le => le
    rcases legal with (⟨_, le⟩ | ⟨_, le⟩ | rfl) | ⟨_, le⟩ | rfl
    · exact Nat.lt_of_le_of_lt (lift _ le) (by decide)
    · exact Nat.lt_of_le_of_lt (lift _ le) (by decide)
    · decide
    · exact Nat.lt_of_le_of_lt (lift _ le) (by decide)
    · decide
  simp [Text.unitsOfChar, small]

/-- A legal name is as wide as it is long. -/
private theorem width_nameChars {cs : List Char} (legal : ∀ c ∈ cs, NameChar c) : Text.units cs = cs.length := by
  induction cs with
  | nil => rfl
  | cons c cs ih =>
    rw [Text.units_cons, units_nameChar (legal c (by simp)), ih (fun d member => legal d (by simp [member])),
      List.length_cons]
    omega

theorem checkNodeName_ok_iff (name : String) : checkNodeName name = .ok () ↔ LegalName name := by
  have form_iff : hasNodeNameForm name.toList = true ↔
      ∃ c rest, name.toList = c :: rest ∧ NameStart c ∧ ∀ d ∈ rest, NameChar d := by
    cases name.toList with
    | nil => simp [hasNodeNameForm]
    | cons c rest => simp [hasNodeNameForm, nameStart_iff, nameChar_iff]
  have width_eq : hasNodeNameForm name.toList = true → Text.width name = name.length := by
    intro form
    obtain ⟨c, rest, chars, first, others⟩ := form_iff.mp form
    rw [Text.width, width_nameChars, String.length_toList]
    intro d member
    rw [chars] at member
    rcases List.mem_cons.mp member with rfl | member
    · exact .inl first
    · exact others d member
  unfold checkNodeName
  split
  · rename_i long
    refine ⟨fun h => (nomatch h), fun legal => ?_⟩
    have := width_eq (form_iff.mpr legal.form)
    have := legal.short
    simp only [nodeNameLimit] at long
    omega
  · rename_i short
    simp only [nodeNameLimit] at short
    split
    · rename_i form
      exact ⟨fun _ => ⟨form_iff.mp form, by rw [← width_eq form]; omega⟩, fun _ => rfl⟩
    · rename_i form
      exact ⟨fun h => (nomatch h), fun legal => absurd (form_iff.mpr legal.form) form⟩

namespace Structure

theorem checkAction_ok_iff (r : Registry) (node : String) (spec : ActionSpec) :
    checkAction r node spec = .ok () ↔ ∃ e, Markup.parse spec.conf = .ok e ∧ r.supports e.name = true := by
  unfold checkAction actionType
  cases Markup.parse spec.conf with
  | error cause => simp
  | ok e => by_cases known : r.supports e.name = true <;> simp [known]

/-- What a node must satisfy to be entered. -/
theorem checkNode_ok_iff (r : Registry) (n : Node) :
    checkNode r n = .ok () ↔ (n.kind ≠ .start → LegalName n.name) ∧
      ∀ ok error spec, n.body = .action ok error spec →
        ∃ e, Markup.parse spec.conf = .ok e ∧ r.supports e.name = true := by
  have name_iff : checkName n = .ok () ↔ (n.kind ≠ .start → LegalName n.name) := by
    unfold checkName
    by_cases first : n.kind = .start <;> simp [first, checkNodeName_ok_iff]
  rw [← name_iff]
  unfold checkNode
  cases checkName n with
  | error fault => simp
  | ok _ =>
    cases n.body with
    | action ok error spec => simp [checkAction_ok_iff]
    | _ => simp

/-! ### What the walk has seen -/

/-- Every done name leads to names that were done before it. -/
def Closed (g : Graph) : List String → Prop
  | [] => True
  | name :: done =>
    (∀ n, g.find? name = some n → isTerminal n = false →
      ∀ t ∈ n.transitions, ∃ m, g.find? t = some m ∧ m.name ∈ done) ∧ Closed g done

/-- The names are those of the nodes of one kind among the names seen, each once. -/
def Lists (g : Graph) (kind : NodeKind) (seen names : List String) : Prop :=
  names.Nodup ∧ ∀ name, name ∈ names ↔ name ∈ seen ∧ ∃ n, g.find? name = some n ∧ n.kind = kind

/-- The report on the names seen. -/
structure Reported (g : Graph) (seen : List String) (report : StructureReport) : Prop where
  forks : Lists g .fork seen report.forks
  joins : Lists g .join seen report.joins
  count : report.visitedCount = seen.length

/-- A name that was seen is that of a node which can be reached and may be entered. -/
def Sound (g : Graph) (r : Registry) (seen : List String) : Prop :=
  ∀ name ∈ seen, ∃ n, g.find? name = some n ∧ g.Reachable n ∧ checkNode r n = .ok ()

/-- A frame has followed transitions to nodes that are done or above it on the stack. -/
def Followed (g : Graph) (done above : List String) (f : Frame) : Prop :=
  ∃ past, f.node.transitions = past ++ f.rest ∧
    ∀ t ∈ past, ∃ m, g.find? t = some m ∧ (m.name ∈ done ∨ m.name ∈ above)

/-- The part of the invariant that does not look at how far the frames are. -/
structure Consistent (g : Graph) (r : Registry) (w : Walk) : Prop where
  distinct : w.seen.Nodup
  sound : Sound g r w.seen
  reported : Reported g w.seen w.report
  closed : Closed g w.done
  going : ∀ f ∈ w.stack, isTerminal f.node = false ∧ g.Reachable f.node
  chain : w.stack.IsChain fun above below => g.Leads below.node above.node

/-- The invariant of the walk. -/
structure Invariant (g : Graph) (r : Registry) (w : Walk) : Prop extends Consistent g r w where
  started : ∀ s, g.start? = some s → s.name ∈ w.seen
  followed : ∀ upper f lower, w.stack = upper ++ f :: lower →
    Followed g w.done (upper.map (·.node.name)) f

/-- What is known once the stack is empty. -/
def Explored (g : Graph) (r : Registry) (report : StructureReport) : Prop :=
  ∃ done : List String, done.Nodup ∧ (∀ s, g.start? = some s → s.name ∈ done) ∧ Sound g r done ∧
    Reported g done report ∧ Closed g done

theorem Lists.perm {g : Graph} {kind : NodeKind} {seen other names : List String} (same : seen.Perm other)
    (lists : Lists g kind seen names) : Lists g kind other names :=
  ⟨lists.1, fun name => by rw [lists.2 name, same.mem_iff]⟩

theorem Reported.perm {g : Graph} {seen other : List String} {report : StructureReport}
    (same : seen.Perm other) (reported : Reported g seen report) : Reported g other report :=
  ⟨reported.forks.perm same, reported.joins.perm same, by rw [reported.count, same.length_eq]⟩

theorem Lists.add {g : Graph} {kind : NodeKind} {seen names : List String} {n : Node}
    (member : n ∈ g.nodes) (fresh : n.name ∉ seen) (lists : Lists g kind seen names) :
    Lists g kind (n.name :: seen) (if n.kind = kind then names ++ [n.name] else names) := by
  obtain ⟨distinct, mem_iff⟩ := lists
  have found := Graph.find?_of_mem member
  have absent : n.name ∉ names := fun listed => fresh ((mem_iff n.name).mp listed).1
  split
  · rename_i isKind
    refine ⟨?_, fun name => ?_⟩
    · rw [List.nodup_append_comm]
      exact List.nodup_cons.mpr ⟨absent, distinct⟩
    · rw [List.mem_append, List.mem_singleton, mem_iff name, List.mem_cons]
      constructor
      · rintro (⟨old, node⟩ | rfl)
        · exact ⟨.inr old, node⟩
        · exact ⟨.inl rfl, n, found, isKind⟩
      · rintro ⟨rfl | old, node⟩
        · exact .inr rfl
        · exact .inl ⟨old, node⟩
  · rename_i otherKind
    refine ⟨distinct, fun name => ?_⟩
    rw [mem_iff name, List.mem_cons]
    constructor
    · exact fun ⟨old, node⟩ => ⟨.inr old, node⟩
    · rintro ⟨rfl | old, m, foundM, isKind⟩
      · rw [found] at foundM
        cases foundM
        exact absurd isKind otherKind
      · exact ⟨old, m, foundM, isKind⟩

theorem Reported.add {g : Graph} {seen : List String} {report : StructureReport} {n : Node}
    (member : n ∈ g.nodes) (fresh : n.name ∉ seen) (reported : Reported g seen report) :
    Reported g (n.name :: seen) (StructureReport.addNode report n) :=
  ⟨reported.forks.add member fresh, reported.joins.add member fresh, by
    simp [StructureReport.addNode, reported.count]⟩

theorem Sound.add {g : Graph} {r : Registry} {seen : List String} {n : Node} (reachable : g.Reachable n)
    (passes : checkNode r n = .ok ()) (sound : Sound g r seen) : Sound g r (n.name :: seen) := by
  intro name member
  rcases List.mem_cons.mp member with rfl | old
  · exact ⟨n, Graph.find?_of_mem reachable.mem, reachable, passes⟩
  · exact sound name old

theorem Closed.target {g : Graph} {done : List String} (closed : Closed g done) {n : Node} (member : n ∈ g.nodes)
    (isDone : n.name ∈ done) (going : isTerminal n = false) {t : String} (transition : t ∈ n.transitions) :
    ∃ m, g.find? t = some m ∧ m.name ∈ done := by
  induction done with
  | nil => cases isDone
  | cons name done ih =>
    obtain ⟨m, found, earlier⟩ : ∃ m, g.find? t = some m ∧ m.name ∈ done := by
      rcases List.mem_cons.mp isDone with rfl | earlier
      · exact closed.1 n (Graph.find?_of_mem member) going t transition
      · exact ih closed.2 earlier
    exact ⟨m, found, List.mem_cons_of_mem _ earlier⟩

theorem Closed.leads {g : Graph} {done : List String} (closed : Closed g done) {m n : Node}
    (member : m ∈ g.nodes) (isDone : m.name ∈ done) (leads : g.Leads m n) : n.name ∈ done := by
  obtain ⟨going, t, transition, found⟩ := leads
  obtain ⟨k, foundK, isDone⟩ := closed.target member isDone going transition
  rw [found] at foundK
  cases foundK
  exact isDone

/-- Nothing that a done node leads to is left out. -/
theorem Closed.reflTransGen {g : Graph} {done : List String} (closed : Closed g done) {m n : Node}
    (member : m ∈ g.nodes) (isDone : m.name ∈ done) (path : Relation.ReflTransGen g.Leads m n) :
    n ∈ g.nodes ∧ n.name ∈ done := by
  induction path with
  | refl => exact ⟨member, isDone⟩
  | tail _ leads ih => exact ⟨leads.mem, closed.leads ih.1 ih.2 leads⟩

/-- No way leads from a done node back to it: it would have been done before itself. -/
theorem Closed.acyclic {g : Graph} {done : List String} (closed : Closed g done) (distinct : done.Nodup)
    {n : Node} (member : n ∈ g.nodes) (isDone : n.name ∈ done) : ¬ Relation.TransGen g.Leads n n := by
  induction done with
  | nil => cases isDone
  | cons name done ih =>
    obtain ⟨fresh, distinct⟩ := List.nodup_cons.mp distinct
    rcases List.mem_cons.mp isDone with rfl | earlier
    · intro cycle
      -- The first step of the cycle leaves to a name done earlier, and from there nothing new is met.
      obtain ⟨k, ⟨going, t, transition, found⟩, path⟩ := Relation.TransGen.head'_iff.mp cycle
      obtain ⟨k', found', isDone⟩ := closed.1 n (Graph.find?_of_mem member) going t transition
      rw [found] at found'
      cases found'
      exact fresh (closed.2.reflTransGen (Graph.mem_of_find? found) isDone path).2
    · exact ih closed.2 distinct earlier

/-! ### The steps of the walk -/

/-- A frame has been where it was, if what was done or open above it still is done or open above it. -/
private theorem Followed.mono {g : Graph} {done done' above above' : List String} {f : Frame}
    (kept : ∀ name, name ∈ done ∨ name ∈ above → name ∈ done' ∨ name ∈ above') (followed : Followed g done above f) :
    Followed g done' above' f := by
  obtain ⟨past, split, targets⟩ := followed
  refine ⟨past, split, fun t member => ?_⟩
  obtain ⟨m, found, place⟩ := targets t member
  exact ⟨m, found, kept m.name place⟩

theorem invariant_leave {g : Graph} {r : Registry} {w : Walk} {n : Node} {below : List Frame}
    (top : w.stack = ⟨n, []⟩ :: below) (inv : Invariant g r w) :
    Invariant g r ⟨below, n.name :: w.done, w.report⟩ := by
  have same : w.seen.Perm (Walk.seen ⟨below, n.name :: w.done, w.report⟩) := by
    simp only [Walk.seen, Walk.openNames, top, List.map_cons, List.cons_append]
    exact List.perm_middle.symm
  have chain := inv.chain
  rw [top] at chain
  refine ⟨⟨same.nodup_iff.mp inv.distinct, fun name member => inv.sound name (same.mem_iff.mpr member),
    inv.reported.perm same, ⟨?_, inv.closed⟩, fun f member => inv.going f (by simp [top, member]), chain.tail⟩,
    fun s first => same.mem_iff.mp (inv.started s first), ?_⟩
  · intro m found _ t transition
    obtain ⟨past, split, targets⟩ := inv.followed [] ⟨n, []⟩ below top
    have reachable := (inv.going ⟨n, []⟩ (by simp [top])).2
    rw [Graph.find?_of_mem reachable.mem] at found
    cases found
    simp only [List.append_nil] at split
    obtain ⟨k, found, isDone | above⟩ := targets t (split ▸ transition)
    · exact ⟨k, found, isDone⟩
    · cases above
  · intro upper f lower split
    have followed := inv.followed (⟨n, []⟩ :: upper) f lower (top.trans (congrArg (⟨n, []⟩ :: ·) split))
    refine followed.mono fun name place => ?_
    simp only [List.map_cons, List.mem_cons] at place ⊢
    tauto

private theorem Consistent.advance {g : Graph} {r : Registry} {w : Walk} {n : Node} {t : String}
    {rest : List String} {below : List Frame} (top : w.stack = ⟨n, t :: rest⟩ :: below)
    (consistent : Consistent g r w) : Consistent g r ⟨⟨n, rest⟩ :: below, w.done, w.report⟩ := by
  have same : w.seen = Walk.seen ⟨⟨n, rest⟩ :: below, w.done, w.report⟩ := by
    simp [Walk.seen, Walk.openNames, top]
  have chain := consistent.chain
  rw [top] at chain
  refine ⟨same ▸ consistent.distinct, same ▸ consistent.sound, same ▸ consistent.reported, consistent.closed, ?_, ?_⟩
  · intro f member
    rcases List.mem_cons.mp member with rfl | member
    · exact consistent.going ⟨n, t :: rest⟩ (by simp [top])
    · exact consistent.going f (by simp [top, member])
  · cases below with
    | nil => exact List.isChain_singleton _
    | cons f below => exact List.isChain_cons_cons.mpr (List.isChain_cons_cons.mp chain)

/-- A frame that followed a transition has been where the transition leads. -/
private theorem Followed.advance {g : Graph} {done above further : List String} {n m : Node} {t : String}
    {rest : List String} (found : g.find? t = some m) (arrived : m.name ∈ done ∨ m.name ∈ further)
    (kept : ∀ name ∈ above, name ∈ further) (followed : Followed g done above ⟨n, t :: rest⟩) :
    Followed g done further ⟨n, rest⟩ := by
  obtain ⟨past, split, targets⟩ := followed
  refine ⟨past ++ [t], by simpa using split, fun t' member => ?_⟩
  rcases List.mem_append.mp member with member | last
  · obtain ⟨k, foundK, place⟩ := targets t' member
    exact ⟨k, foundK, place.imp_right (kept k.name)⟩
  · rw [List.mem_singleton.mp last]
    exact ⟨m, found, arrived⟩

theorem invariant_skip {g : Graph} {r : Registry} {w : Walk} {n m : Node} {t : String}
    {rest : List String} {below : List Frame} (top : w.stack = ⟨n, t :: rest⟩ :: below)
    (found : g.find? t = some m) (isDone : m.name ∈ w.done) (inv : Invariant g r w) :
    Invariant g r ⟨⟨n, rest⟩ :: below, w.done, w.report⟩ := by
  refine ⟨inv.toConsistent.advance top, fun s first => ?_, ?_⟩
  · simpa [Walk.seen, Walk.openNames, top] using inv.started s first
  · intro upper f lower split
    cases upper with
    | nil =>
      obtain ⟨rfl, rfl⟩ := List.cons.inj split
      exact (inv.followed [] _ below top).advance found (.inl isDone) fun _ above => above
    | cons f' upper =>
      obtain ⟨rfl, rfl⟩ := List.cons.inj split
      simpa using inv.followed (⟨n, t :: rest⟩ :: upper) f lower (by rw [top]; rfl)

/-- What a node must be to be entered, which every frame below may already count on. -/
private structure Enterable (g : Graph) (r : Registry) (w : Walk) (m : Node) : Prop where
  reachable : g.Reachable m
  fresh : m.name ∉ w.seen
  passes : checkNode r m = .ok ()
  consistent : Consistent g r w
  onward : ∀ f below, w.stack = f :: below → g.Leads f.node m
  started : ∀ s, g.start? = some s → s.name ∈ m.name :: w.seen
  followed : ∀ upper f lower, w.stack = upper ++ f :: lower → Followed g w.done (m.name :: upper.map (·.node.name)) f

/-- A node at which a walk ends is done at once. -/
private theorem Enterable.finish {g : Graph} {r : Registry} {w : Walk} {m : Node} (enterable : Enterable g r w m)
    (terminal : isTerminal m = true) : Invariant g r ⟨w.stack, m.name :: w.done, StructureReport.addNode w.report m⟩ := by
  have same : (m.name :: w.seen).Perm (Walk.seen ⟨w.stack, m.name :: w.done, StructureReport.addNode w.report m⟩) :=
    List.perm_middle.symm
  have member := enterable.reachable.mem
  have distinct := List.nodup_cons.mpr ⟨enterable.fresh, enterable.consistent.distinct⟩
  have sound := enterable.consistent.sound.add enterable.reachable enterable.passes
  have reported := enterable.consistent.reported.add member enterable.fresh
  have idle : ∀ n, g.find? m.name = some n → isTerminal n = false → ∀ t ∈ n.transitions,
      ∃ k, g.find? t = some k ∧ k.name ∈ w.done := by
    intro n found going
    rw [Graph.find?_of_mem member] at found
    cases found
    rw [terminal] at going
    cases going
  refine ⟨⟨same.nodup_iff.mp distinct, fun name mem => sound name (same.mem_iff.mpr mem), reported.perm same,
    ⟨idle, enterable.consistent.closed⟩, enterable.consistent.going, enterable.consistent.chain⟩,
    fun s first => same.mem_iff.mp (enterable.started s first), fun upper f lower split => ?_⟩
  refine (enterable.followed upper f lower split).mono fun name place => ?_
  simp only [List.mem_cons] at place ⊢
  tauto

/-- Any other node is open, and has followed none of its transitions. -/
private theorem Enterable.push {g : Graph} {r : Registry} {w : Walk} {m : Node} (enterable : Enterable g r w m)
    (going : isTerminal m = false) :
    Invariant g r ⟨⟨m, m.transitions⟩ :: w.stack, w.done, StructureReport.addNode w.report m⟩ := by
  have distinct := List.nodup_cons.mpr ⟨enterable.fresh, enterable.consistent.distinct⟩
  have sound := enterable.consistent.sound.add enterable.reachable enterable.passes
  have reported := enterable.consistent.reported.add enterable.reachable.mem enterable.fresh
  have chain : (⟨m, m.transitions⟩ :: w.stack).IsChain fun above below => g.Leads below.node above.node := by
    cases top : w.stack with
    | nil => exact List.isChain_singleton _
    | cons f below => exact List.isChain_cons_cons.mpr ⟨enterable.onward f below top, top ▸ enterable.consistent.chain⟩
  refine ⟨⟨distinct, sound, reported, enterable.consistent.closed,
    List.forall_mem_cons.mpr ⟨⟨going, enterable.reachable⟩, enterable.consistent.going⟩, chain⟩, enterable.started,
    fun upper f lower split => ?_⟩
  cases upper with
  | nil =>
    obtain ⟨rfl, rfl⟩ := List.cons.inj split
    exact ⟨[], rfl, fun t mem => nomatch mem⟩
  | cons f' upper =>
    obtain ⟨rfl, below⟩ := List.cons.inj split
    exact enterable.followed upper f lower below

private theorem Enterable.invariant {g : Graph} {r : Registry} {w : Walk} {m : Node} (enterable : Enterable g r w m) :
    Invariant g r (w.enter m) := by
  unfold Walk.enter
  split
  · rename_i terminal
    exact enterable.finish terminal
  · rename_i going
    exact enterable.push (by simpa using going)

/-- Every node on the stack leads on to the top one. -/
private theorem leads_to_top {g : Graph} {f : Frame} {below : List Frame}
    (chain : (f :: below).IsChain fun above below => g.Leads below.node above.node) :
    ∀ f' ∈ f :: below, Relation.ReflTransGen g.Leads f'.node f.node := by
  induction below generalizing f with
  | nil =>
    intro f' member
    rw [List.mem_singleton.mp member]
  | cons next below ih =>
    obtain ⟨leads, chain⟩ := List.isChain_cons_cons.mp chain
    intro f' member
    rcases List.mem_cons.mp member with rfl | member
    · exact .refl
    · exact (ih chain f' member).tail leads

/-- The node on top of the stack can be reached, goes on, and has the transition that comes next. -/
theorem Invariant.top {g : Graph} {r : Registry} {w : Walk} {n : Node} {t : String}
    {rest : List String} {below : List Frame} (inv : Invariant g r w) (top : w.stack = ⟨n, t :: rest⟩ :: below) :
    g.Reachable n ∧ isTerminal n = false ∧ t ∈ n.transitions := by
  obtain ⟨going, reachable⟩ := inv.going ⟨n, t :: rest⟩ (by simp [top])
  obtain ⟨past, split, _⟩ := inv.followed [] _ below top
  exact ⟨reachable, going, by rw [split]; simp⟩

theorem invariant_push {g : Graph} {r : Registry} {w : Walk} {n m : Node} {t : String}
    {rest : List String} {below : List Frame} (top : w.stack = ⟨n, t :: rest⟩ :: below)
    (found : g.find? t = some m) (notOpen : m.name ∉ w.openNames) (notDone : m.name ∉ w.done)
    (passes : checkNode r m = .ok ()) (inv : Invariant g r w) :
    Invariant g r (Walk.enter ⟨⟨n, rest⟩ :: below, w.done, w.report⟩ m) := by
  obtain ⟨reachable, going, transition⟩ := inv.top top
  have leads : g.Leads n m := ⟨going, t, transition, found⟩
  have same : Walk.seen ⟨⟨n, rest⟩ :: below, w.done, w.report⟩ = w.seen := by
    simp [Walk.seen, Walk.openNames, top]
  refine Enterable.invariant ⟨reachable.tail leads, ?_, passes, inv.toConsistent.advance top, ?_, ?_, ?_⟩
  · rw [same, Walk.seen, List.mem_append]
    exact not_or.mpr ⟨notOpen, notDone⟩
  · intro f below' first
    obtain ⟨rfl, _⟩ := List.cons.inj first
    exact leads
  · exact fun s first => same ▸ List.mem_cons_of_mem _ (inv.started s first)
  · intro upper f lower split
    cases upper with
    | nil =>
      obtain ⟨rfl, rfl⟩ := List.cons.inj split
      exact (inv.followed [] _ below top).advance found (.inr (by simp)) fun _ above => by cases above
    | cons f' upper =>
      obtain ⟨rfl, rfl⟩ := List.cons.inj split
      have followed := inv.followed (⟨n, t :: rest⟩ :: upper) f lower (by rw [top]; rfl)
      exact followed.mono fun name place => place.imp_right fun above => List.mem_cons_of_mem _ above

/-! ### What the walk returns -/

/-- A report is on all that can be reached, and a fault is on a graph that is not well formed. -/
theorem walk_correct {g : Graph} {r : Registry} {w : Walk} (inv : Invariant g r w) :
    match walk g r w with
    | .ok report => Explored g r report
    | .error _ => ¬ g.WellFormed r := by
  fun_induction walk g r w with
  | case1 w empty =>
    have same : w.seen = w.done := by simp [Walk.seen, Walk.openNames, empty]
    exact ⟨w.done, same ▸ inv.distinct, same ▸ inv.started, same ▸ inv.sound, same ▸ inv.reported, inv.closed⟩
  | case2 w n below top ih => exact ih (invariant_leave top inv)
  | case3 w n t rest below top missing =>
    intro wellFormed
    obtain ⟨reachable, going, transition⟩ := inv.top top
    obtain ⟨m, found⟩ := wellFormed.resolved n reachable going t transition
    rw [missing] at found
    cases found
  | case4 w n t rest below top target found isOpen =>
    intro wellFormed
    obtain ⟨reachable, going, transition⟩ := inv.top top
    have closing : g.Leads n target := ⟨going, t, transition, found⟩
    obtain ⟨f, member, name⟩ := List.mem_map.mp isOpen
    have same : f.node = target :=
      Graph.eq_of_name_eq (inv.going f member).2.mem (Graph.mem_of_find? found) name
    have path := leads_to_top (top ▸ inv.chain) f (top ▸ member)
    rw [same] at path
    exact wellFormed.acyclic target (reachable.tail closing) (.tail' path closing)
  | case5 w n t rest below top target found _ isDone ih => exact ih (invariant_skip top found isDone inv)
  | case6 w n t rest below top target found _ _ fault refused =>
    intro wellFormed
    obtain ⟨reachable, going, transition⟩ := inv.top top
    have arrived := reachable.tail ⟨going, t, transition, found⟩
    have passes := (checkNode_ok_iff r target).mpr
      ⟨wellFormed.named target arrived, fun ok error spec => wellFormed.typed target ok error spec arrived⟩
    rw [refused] at passes
    cases passes
  | case7 w n t rest below top target found notOpen notDone passes ih =>
    exact ih (invariant_push top found notOpen notDone passes inv)

theorem invariant_start {g : Graph} {r : Registry} {s : Node} (first : g.start? = some s)
    (passes : checkNode r s = .ok ()) : Invariant g r (Walk.enter ⟨[], [], {}⟩ s) := by
  refine Enterable.invariant ⟨⟨s, first, .refl⟩, by simp [Walk.seen, Walk.openNames], passes, ⟨?_, ?_, ?_, ?_, ?_, ?_⟩, ?_, ?_, ?_⟩
  · exact List.nodup_nil
  · intro name member; cases member
  · refine ⟨⟨List.nodup_nil, fun name => ?_⟩, ⟨List.nodup_nil, fun name => ?_⟩, rfl⟩
    · simp [Walk.seen, Walk.openNames]
    · simp [Walk.seen, Walk.openNames]
  · exact True.intro
  · intro f member; cases member
  · exact List.isChain_nil
  · intro f below top; cases top
  · intro s' first'
    rw [first] at first'
    cases first'
    exact List.mem_cons_self ..
  · intro upper f lower split
    simp at split

/-- A name was done exactly if its node can be reached. -/
private theorem reachable_iff_done {g : Graph} {r : Registry} {done : List String} {s : Node}
    (first : g.start? = some s) (started : s.name ∈ done) (sound : Sound g r done) (closed : Closed g done)
    (n : Node) : g.Reachable n ↔ n ∈ g.nodes ∧ n.name ∈ done := by
  constructor
  · rintro ⟨s', first', path⟩
    rw [first] at first'
    cases first'
    exact closed.reflTransGen (Graph.mem_of_start? first) started path
  · rintro ⟨member, isDone⟩
    obtain ⟨m, found, reachable, _⟩ := sound n.name isDone
    rw [Graph.find?_of_mem member] at found
    cases found
    exact reachable

/-- A report is only made on a graph that is well formed. -/
theorem Explored.wellFormed {g : Graph} {r : Registry} {report : StructureReport} {s : Node}
    (first : g.start? = some s) (explored : Explored g r report) : g.WellFormed r := by
  obtain ⟨done, distinct, started, sound, _, closed⟩ := explored
  have reachable_iff := reachable_iff_done first (started s first) sound closed
  have passes (n : Node) (reachable : g.Reachable n) : checkNode r n = .ok () := by
    obtain ⟨m, found, _, passes⟩ := sound n.name ((reachable_iff n).mp reachable).2
    rw [Graph.find?_of_mem reachable.mem] at found
    cases found
    exact passes
  refine ⟨?_, ?_, ?_, ?_⟩
  · intro n reachable going t transition
    obtain ⟨m, found, _⟩ := closed.target reachable.mem ((reachable_iff n).mp reachable).2 going transition
    exact ⟨m, found⟩
  · intro n reachable
    exact closed.acyclic distinct reachable.mem ((reachable_iff n).mp reachable).2
  · intro n reachable
    exact ((checkNode_ok_iff r n).mp (passes n reachable)).1
  · intro n ok error spec reachable body
    exact ((checkNode_ok_iff r n).mp (passes n reachable)).2 ok error spec body

/-- A list of a report names the nodes of its kind that can be reached. -/
private theorem lists_reachable {g : Graph} {done names : List String} {kind : NodeKind}
    (reachable_iff : ∀ n, g.Reachable n ↔ n ∈ g.nodes ∧ n.name ∈ done) (lists : Lists g kind done names) :
    names.Nodup ∧ ∀ name, name ∈ names ↔ ∃ n, g.Reachable n ∧ n.kind = kind ∧ n.name = name := by
  refine ⟨lists.1, fun name => ?_⟩
  rw [lists.2 name]
  constructor
  · rintro ⟨isDone, n, found, isKind⟩
    have same := Graph.name_of_find? found
    exact ⟨n, (reachable_iff n).mpr ⟨Graph.mem_of_find? found, same ▸ isDone⟩, isKind, same⟩
  · rintro ⟨n, reachable, isKind, rfl⟩
    exact ⟨((reachable_iff n).mp reachable).2, n, Graph.find?_of_mem reachable.mem, isKind⟩

/-- What a report says about what can be reached. -/
theorem Explored.report {g : Graph} {r : Registry} {report : StructureReport} {s : Node}
    (first : g.start? = some s) (explored : Explored g r report) :
    report.visitedCount = Set.ncard {n | g.Reachable n} ∧
    (report.forks.Nodup ∧ ∀ name, name ∈ report.forks ↔ ∃ n, g.Reachable n ∧ n.kind = .fork ∧ n.name = name) ∧
    (report.joins.Nodup ∧ ∀ name, name ∈ report.joins ↔ ∃ n, g.Reachable n ∧ n.kind = .join ∧ n.name = name) := by
  obtain ⟨done, distinct, started, sound, reported, closed⟩ := explored
  have reachable_iff := reachable_iff_done first (started s first) sound closed
  refine ⟨?_, lists_reachable reachable_iff reported.forks, lists_reachable reachable_iff reported.joins⟩
  have names : Node.name '' {n | g.Reachable n} = (done.toFinset : Set String) := by
    ext name
    simp only [Set.mem_image, Set.mem_ofPred_eq, List.coe_toFinset]
    constructor
    · rintro ⟨n, reachable, rfl⟩
      exact ((reachable_iff n).mp reachable).2
    · intro isDone
      obtain ⟨n, found, reachable, _⟩ := sound name isDone
      exact ⟨n, reachable, Graph.name_of_find? found⟩
  have injective : Set.InjOn Node.name {n | g.Reachable n} :=
    fun m left n right same => Graph.eq_of_name_eq (Graph.Reachable.mem left) (Graph.Reachable.mem right) same
  rw [← injective.ncard_image, names, Set.ncard_coe_finset, List.toFinset_card_of_nodup distinct, reported.count]

end Structure

/-- The check of the structure reports on what can be reached, or the graph is not well formed. -/
theorem Graph.checkStructure_correct {g : Graph} {r : Registry} {s : Node} (first : g.start? = some s) :
    match g.checkStructure r with
    | .ok report => Structure.Explored g r report
    | .error _ => ¬ g.WellFormed r := by
  simp only [Graph.checkStructure, Graph.start, first]
  cases passes : Structure.checkNode r s with
  | error fault =>
    intro wellFormed
    have reachable : g.Reachable s := ⟨s, first, .refl⟩
    have legal := (Structure.checkNode_ok_iff r s).mpr
      ⟨wellFormed.named s reachable, fun ok error spec => wellFormed.typed s ok error spec reachable⟩
    rw [passes] at legal
    cases legal
  | ok _ => exact Structure.walk_correct (Structure.invariant_start first passes)

/-- A graph whose structure was reported has a start node, and the report is on what it leads to. -/
theorem Graph.explored_of_checkStructure {g : Graph} {r : Registry} {report : StructureReport}
    (checked : g.checkStructure r = .ok report) :
    ∃ s, g.start? = some s ∧ Structure.Explored g r report := by
  cases first : g.start? with
  | none => simp [Graph.checkStructure, Graph.start, first] at checked
  | some s =>
    have correct := Graph.checkStructure_correct (r := r) first
    rw [checked] at correct
    exact ⟨s, rfl, correct⟩

/-- The structure of a graph is reported exactly if the graph is well formed, and the report has
    the forks and joins that can be reached, each once, and the number of nodes. -/
theorem Graph.checkStructure_exact {g : Graph} (r : Registry) {s : Node} (first : g.start? = some s) :
    ((∃ report, g.checkStructure r = .ok report) ↔ g.WellFormed r) ∧
    ∀ report, g.checkStructure r = .ok report →
      report.visitedCount = Set.ncard {n | g.Reachable n} ∧
      (report.forks.Nodup ∧
        ∀ name, name ∈ report.forks ↔ ∃ n, g.Reachable n ∧ n.kind = .fork ∧ n.name = name) ∧
      (report.joins.Nodup ∧
        ∀ name, name ∈ report.joins ↔ ∃ n, g.Reachable n ∧ n.kind = .join ∧ n.name = name) := by
  have correct := Graph.checkStructure_correct (r := r) first
  refine ⟨⟨?_, fun wellFormed => ?_⟩, ?_⟩
  · rintro ⟨report, checked⟩
    rw [checked] at correct
    exact correct.wellFormed first
  · cases checked : g.checkStructure r with
    | error fault =>
      rw [checked] at correct
      exact absurd wellFormed correct
    | ok report => exact ⟨report, rfl⟩
  · intro report checked
    rw [checked] at correct
    exact correct.report first

/-- A fork inside a branch of another fork, with a decision inside both. -/
def Graph.nestedForks : Graph where
  name := "nested"
  nodes :=
    [⟨startName, .start ["split"]⟩, ⟨"split", .fork ["left", "inner"]⟩,
      ⟨"left", .action "meet" "stop" { conf := "<shell/>" }⟩, ⟨"inner", .fork ["near", "far"]⟩,
      ⟨"near", .action "close" "stop" { conf := "<shell/>" }⟩, ⟨"far", .decision "<switch/>" ["close", "stop"]⟩,
      ⟨"close", .join ["meet"]⟩, ⟨"meet", .join ["done"]⟩, ⟨"stop", .kill none []⟩, ⟨"done", .finish []⟩]
  distinct := by decide

namespace Structure

theorem walk_nil (g : Graph) (r : Registry) (done : List String) (report : StructureReport) :
    walk g r ⟨[], done, report⟩ = .ok report := by
  rw [walk]

theorem walk_leave (g : Graph) (r : Registry) (n : Node) (below : List Frame) (done : List String)
    (report : StructureReport) :
    walk g r ⟨⟨n, []⟩ :: below, done, report⟩ = walk g r ⟨below, n.name :: done, report⟩ := by
  rw [walk]

theorem walk_follow (g : Graph) (r : Registry) (n : Node) (t : String) (rest : List String)
    (below : List Frame) (done : List String) (report : StructureReport) :
    walk g r ⟨⟨n, t :: rest⟩ :: below, done, report⟩ =
      match g.find? t with
      | none => .error (.danglingTransition (some n.name) (some t))
      | some target =>
        if target.name ∈ n.name :: below.map (·.node.name) then
          .error (.cycleClosing target.name (cycleAt (n.name :: below.map (·.node.name)) target.name))
        else if target.name ∈ done then walk g r ⟨⟨n, rest⟩ :: below, done, report⟩
        else
          match checkNode r target with
          | .error fault => .error fault
          | .ok () => walk g r (Walk.enter ⟨⟨n, rest⟩ :: below, done, report⟩ target) := by
  conv => lhs; rw [walk]
  dsimp only
  split
  · rename_i missing
    rw [missing]
  · rename_i target found
    rw [found]
    rfl

theorem checkNode_of_isOk {r : Registry} {nodes : List Node}
    (passes : ∀ n ∈ nodes, (checkNode r n).isOk = true) : ∀ n ∈ nodes, checkNode r n = .ok () := by
  intro n member
  have ok := passes n member
  cases checked : checkNode r n with
  | ok _ => rfl
  | error fault => rw [checked] at ok; cases ok

end Structure

theorem Graph.checkStructure_nestedForks :
    nestedForks.checkStructure (Registry.withBuiltins []) = .ok ⟨["split", "inner"], ["meet", "close"], 10⟩ := by
  have passes : ∀ n ∈ nestedForks.nodes, Structure.checkNode (Registry.withBuiltins []) n = .ok () :=
    Structure.checkNode_of_isOk (by decide +kernel)
  simp only [nestedForks, startName, List.forall_mem_cons] at passes
  simp [Graph.checkStructure, Graph.start, Graph.start?, nestedForks, Node.kind, passes, Structure.walk_nil,
    Structure.walk_leave, Structure.walk_follow, Structure.Walk.enter, Structure.isTerminal, Graph.find?,
    Structure.StructureReport.addNode, Node.transitions, startName]

theorem Graph.wellFormed_nestedForks :
    nestedForks.start? = some ⟨startName, .start ["split"]⟩ ∧
      nestedForks.WellFormed (Registry.withBuiltins []) ∧ Set.ncard {n | nestedForks.Reachable n} = 10 := by
  have correct := Graph.checkStructure_exact (g := nestedForks) (Registry.withBuiltins []) rfl
  exact ⟨rfl, correct.1.mp ⟨_, checkStructure_nestedForks⟩, (correct.2 _ checkStructure_nestedForks).1.symm⟩

end WorkflowCompiler
