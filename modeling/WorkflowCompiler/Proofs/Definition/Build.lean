import WorkflowCompiler.Definition.Build
import WorkflowCompiler.Definition.Schema

/-!
What a build does when it succeeds. Reading one element adds the node that the
element declares, sets the defaults for what follows, or does nothing (`Reads`),
and reading a definition is one such step for each element (`Builds`). Nodes stay
where they are once they were added, and every node comes from the element that
declares it (`Builds.declared`).
-/
namespace WorkflowCompiler
open Markup (Element)

variable {σ α β : Type}

theorem Attempt.andThen_eq_succeed {a : Attempt σ α} {next : σ → α → Attempt σ β} {t : σ} {y : β}
    (passed : a.andThen next = .succeed t y) : ∃ s x, a = .succeed s x ∧ next s x = .succeed t y := by
  obtain ⟨s, result⟩ := a
  cases result with
  | error fault => cases passed
  | ok x => exact ⟨s, x, rfl, passed⟩

theorem Except.bind_eq_ok {x : Except Fault α} {next : α → Except Fault β} {y : β} (passed : x >>= next = .ok y) :
    ∃ a, x = .ok a ∧ next a = .ok y := by
  cases x with
  | error fault => cases passed
  | ok a => exact ⟨a, rfl, passed⟩

theorem Except.map_eq_ok {x : Except Fault α} {f : α → β} {y : β} (passed : x.map f = .ok y) :
    ∃ a, x = .ok a ∧ f a = y := by
  cases x with
  | error fault => cases passed
  | ok a =>
    cases passed
    exact ⟨a, rfl, rfl⟩

namespace Definition

/-- The node that an element declares, if it is one that declares a node by itself. -/
def plainNode? (e : Element) : Option (Except Fault Node) :=
  if e.name = Tag.start then some (startNode e)
  else if e.name = Tag.finish then some (finishNode e)
  else if e.name = Tag.kill then some (killNode e)
  else if e.name = Tag.fork then some (forkNode e)
  else if e.name = Tag.join then some (joinNode e)
  else if e.name = Tag.decision then some (decisionNode e)
  else none

/-- The elements that declare a node by themselves, with what that node is. -/
inductive Plain (e : Element) : Except Fault Node → Prop
  | start (tag : e.name = Tag.start) : Plain e (startNode e)
  | finish (tag : e.name = Tag.finish) : Plain e (finishNode e)
  | kill (tag : e.name = Tag.kill) : Plain e (killNode e)
  | fork (tag : e.name = Tag.fork) : Plain e (forkNode e)
  | join (tag : e.name = Tag.join) : Plain e (joinNode e)
  | decision (tag : e.name = Tag.decision) : Plain e (decisionNode e)

theorem plain_of_plainNode? {e : Element} {n : Except Fault Node} (plain : plainNode? e = some n) : Plain e n := by
  unfold plainNode? at plain
  split at plain
  · rename_i tag
    cases plain
    exact .start tag
  split at plain
  · rename_i tag
    cases plain
    exact .finish tag
  split at plain
  · rename_i tag
    cases plain
    exact .kill tag
  split at plain
  · rename_i tag
    cases plain
    exact .fork tag
  split at plain
  · rename_i tag
    cases plain
    exact .join tag
  split at plain
  · rename_i tag
    cases plain
    exact .decision tag
  · cases plain

/-- The nodes that elements declare by themselves, with what the elements say. -/
inductive PlainNode (e : Element) : Node → Prop
  | start (tag : e.name = Tag.start) {target : String} (leads : requireAttribute e Key.target = .ok target) :
      PlainNode e ⟨startName, .start [target]⟩
  | finish (tag : e.name = Tag.finish) {name : String} (named : requireAttribute e Key.name = .ok name) :
      PlainNode e ⟨name, .finish []⟩
  | kill (tag : e.name = Tag.kill) {name : String} (named : requireAttribute e Key.name = .ok name) :
      PlainNode e ⟨name, .kill (e.childText? Tag.message) []⟩
  | fork (tag : e.name = Tag.fork) {name : String} (named : requireAttribute e Key.name = .ok name) {targets : List String}
      (paths : (e.childrenNamed Tag.forkPath).mapM (fun p => requireAttribute p Key.start) = .ok targets) :
      PlainNode e ⟨name, .fork targets⟩
  | join (tag : e.name = Tag.join) {name target : String} (named : requireAttribute e Key.name = .ok name)
      (leads : requireAttribute e Key.target = .ok target) : PlainNode e ⟨name, .join [target]⟩
  | decision (tag : e.name = Tag.decision) {name : String} (named : requireAttribute e Key.name = .ok name)
      {switch last : Element} (branches : e.child? Tag.switch = some switch) (default : switch.child? Tag.switchDefault = some last)
      {targets : List String}
      (cases : (switch.childrenNamed Tag.switchCase).mapM (fun c => requireAttribute c Key.target) = .ok targets)
      {otherwise text : String} (leads : requireAttribute last Key.target = .ok otherwise)
      (written : writeElement switch = .ok text) : PlainNode e ⟨name, .decision text (targets ++ [otherwise])⟩

theorem plainNode_of_plainNode? {e : Element} {n : Node} (declares : plainNode? e = some (.ok n)) : PlainNode e n := by
  obtain ⟨result, declared, plain⟩ : ∃ result, result = .ok n ∧ Plain e result := ⟨_, rfl, plain_of_plainNode? declares⟩
  cases plain with
  | start tag =>
    obtain ⟨target, leads, rfl⟩ := Except.map_eq_ok declared
    exact .start tag leads
  | finish tag =>
    obtain ⟨name, named, rfl⟩ := Except.map_eq_ok declared
    exact .finish tag named
  | kill tag =>
    obtain ⟨name, named, rfl⟩ := Except.map_eq_ok declared
    exact .kill tag named
  | fork tag =>
    obtain ⟨name, named, declared⟩ := Except.bind_eq_ok declared
    obtain ⟨targets, paths, declared⟩ := Except.bind_eq_ok declared
    cases declared
    exact .fork tag named paths
  | join tag =>
    obtain ⟨name, named, declared⟩ := Except.bind_eq_ok declared
    obtain ⟨target, leads, declared⟩ := Except.bind_eq_ok declared
    cases declared
    exact .join tag named leads
  | decision tag =>
    obtain ⟨name, named, declared⟩ := Except.bind_eq_ok declared
    split at declared
    · cases declared
    · rename_i switch branches
      split at declared
      · cases declared
      · rename_i last default
        obtain ⟨targets, cases', declared⟩ := Except.bind_eq_ok declared
        obtain ⟨otherwise, leads, declared⟩ := Except.bind_eq_ok declared
        obtain ⟨text, written, declared⟩ := Except.bind_eq_ok declared
        cases declared
        exact .decision tag named branches default cases' leads written

theorem plainNode?_action {e : Element} (tag : e.name = Tag.action) : plainNode? e = none := by
  rw [plainNode?, tag]
  rfl

theorem plainNode?_globals {e : Element} (tag : e.name = Tag.globals) : plainNode? e = none := by
  rw [plainNode?, tag]
  rfl

theorem plainNode?_passed {e : Element} (tag : isPassedOver e.name = true) : plainNode? e = none := by
  simp only [isPassedOver, Bool.or_eq_true, beq_iff_eq] at tag
  rcases tag with (tag | tag) | tag
  · rw [plainNode?, tag]
    rfl
  · rw [plainNode?, tag]
    rfl
  · rw [plainNode?, tag]
    rfl

/-- What reading an element does when it succeeds. -/
inductive Reads (b : Builder) (s : BuildState) (e : Element) : BuildState → Prop
  | node {n : Node} {graph : Graph} (declares : plainNode? e = some (.ok n)) (added : s.graph.add n = .ok graph) :
      Reads b s e { s with graph := graph }
  | action {t : BuildState} {n : Node} {graph : Graph} (tag : e.name = Tag.action)
      (read : actionNode b s e = .succeed t n) (added : t.graph.add n = .ok graph) : Reads b s e { t with graph := graph }
  | globals {t : BuildState} (tag : e.name = Tag.globals) (applied : applyGlobals b s e = .ok t) : Reads b s e t
  | passed (tag : isPassedOver e.name = true) : Reads b s e s

/-- What reading the elements of a definition does when it succeeds. -/
inductive Builds (b : Builder) : BuildState → List Element → BuildState → Prop
  | done {s : BuildState} : Builds b s [] s
  | step {s mid t : BuildState} {e : Element} {rest : List Element} (first : Reads b s e mid)
      (onward : Builds b mid rest t) : Builds b s (e :: rest) t

variable {b : Builder} {s t : BuildState} {e : Element}

theorem addNode_eq_succeed {n : Except Fault Node} (added : addNode s n = .succeed t ()) :
    ∃ m graph, n = .ok m ∧ s.graph.add m = .ok graph ∧ t = { s with graph := graph } := by
  unfold addNode at added
  split at added
  · cases added
  · rename_i m
    split at added
    · cases added
    · rename_i graph fits
      cases added
      exact ⟨m, graph, rfl, fits, rfl⟩

theorem buildElement_eq (b : Builder) (s : BuildState) (e : Element) :
    buildElement b s e =
      match plainNode? e with
      | some n => addNode s n
      | none =>
        if e.name = Tag.action then (actionNode b s e).andThen fun s n => addNode s (.ok n)
        else if e.name = Tag.globals then stepOf s (applyGlobals b s e)
        else if isPassedOver e.name then .succeed s ()
        else .fail s (.unknownElement e.name) := by
  unfold buildElement plainNode?
  split
  · rfl
  split
  · rfl
  split
  · rfl
  split
  · rfl
  split
  · rfl
  split
  · rfl
  dsimp only [stepOf]
  congr 2
  cases applyGlobals b s e <;> rfl

theorem reads_of_buildElement (read : buildElement b s e = .succeed t ()) : Reads b s e t := by
  rw [buildElement_eq] at read
  split at read
  · rename_i n declares
    obtain ⟨m, graph, rfl, added, rfl⟩ := addNode_eq_succeed read
    exact .node declares added
  · split at read
    · rename_i tag
      obtain ⟨mid, n, action, added⟩ := Attempt.andThen_eq_succeed read
      obtain ⟨_, graph, same, added, rfl⟩ := addNode_eq_succeed added
      cases same
      exact .action tag action added
    · split at read
      · rename_i tag
        cases applied : applyGlobals b s e with
        | error fault => rw [applied] at read; cases read
        | ok mid =>
          rw [applied] at read
          cases read
          exact .globals tag applied
      · split at read
        · rename_i tag
          cases read
          exact .passed tag
        · cases read

theorem builds_of_buildElements {elements : List Element} (built : buildElements b s elements = .succeed t ()) :
    Builds b s elements t := by
  induction elements generalizing s with
  | nil =>
    cases built
    exact .done
  | cons e rest ih =>
    obtain ⟨mid, _, first, onward⟩ := Attempt.andThen_eq_succeed built
    exact .step (reads_of_buildElement first) (ih onward)

theorem nodes_of_add {g g' : Graph} {n : Node} (added : g.add n = .ok g') : g'.nodes = g.nodes ++ [n] := by
  unfold Graph.add at added
  split at added
  · cases added
  · split at added
    · cases added
    · cases added
      rfl

/-! ### Actions -/

/-- Handing defaults on changes the job configuration only. -/
theorem propagate_keeps (s : BuildState) (e : Element) :
    (propagate s e).graph = s.graph ∧ (propagate s e).globals = s.globals := by
  unfold propagate
  split
  · exact ⟨rfl, rfl⟩
  · split
    · exact ⟨rfl, rfl⟩
    · exact ⟨rfl, rfl⟩

/-- The child of an action that says what to run, of several the last one. -/
def runs? (children : List Element) : Option Element :=
  (children.filter fun c => c.name ∉ otherActionChildren).getLast?

theorem runs?_cons_other {c : Element} {rest : List Element} (other : c.name ∈ otherActionChildren) :
    runs? (c :: rest) = runs? rest := by
  simp [runs?, other]

theorem runs?_cons {c : Element} {rest : List Element} (type : c.name ∉ otherActionChildren) :
    runs? (c :: rest) = (runs? rest).or (some c) := by
  simp [runs?, type, List.getLast?_cons]

/-- Reads one child of an action. -/
def readChild (b : Builder) (node : String) (s : BuildState) (draft : ActionDraft) (c : Element) :
    Attempt BuildState ActionDraft :=
  if c.name = Tag.ok then
    .ofExcept s ((requireAttribute c Key.target).map fun target => { draft with okTarget := some target })
  else if c.name = Tag.error then
    .ofExcept s ((requireAttribute c Key.target).map fun target => { draft with errorTarget := some target })
  else if c.name = Tag.slaInfo ∨ c.name = Tag.credentials then .succeed s draft
  else
    let resolved := inherit b.inheritance c s.globals b.layer (some node)
    .ofExcept (propagate s c) (resolved.result.map fun _ => { draft with conf := some resolved.state })

/-- The children of an action are read one after the other. -/
theorem readAction_cons (b : Builder) (node : String) (s : BuildState) (draft : ActionDraft) (c : Element) (rest : List Element) :
    readAction b node s draft (c :: rest) =
      (readChild b node s draft c).andThen fun s draft => readAction b node s draft rest := by
  rw [readAction, readChild]
  split
  · cases requireAttribute c Key.target <;> rfl
  split
  · cases requireAttribute c Key.target <;> rfl
  split
  · rfl
  · dsimp only
    rw [(propagate_keeps s c).2]
    cases (inherit b.inheritance c s.globals b.layer (some node)).result <;> rfl

/-- What reading a child of an action does when it succeeds. -/
inductive ReadsChild (b : Builder) (node : String) (s : BuildState) (draft : ActionDraft) (c : Element) :
    BuildState → ActionDraft → Prop
  | ok (tag : c.name = Tag.ok) {target : String} (leads : requireAttribute c Key.target = .ok target) :
      ReadsChild b node s draft c s { draft with okTarget := some target }
  | error (tag : c.name = Tag.error) {target : String} (leads : requireAttribute c Key.target = .ok target) :
      ReadsChild b node s draft c s { draft with errorTarget := some target }
  | other (tag : c.name = Tag.slaInfo ∨ c.name = Tag.credentials) : ReadsChild b node s draft c s draft
  | type (runs : c.name ∉ otherActionChildren) {filled : Element}
      (inherited : inherit b.inheritance c s.globals b.layer (some node) = .succeed filled ()) :
      ReadsChild b node s draft c (propagate s c) { draft with conf := some filled }

theorem readsChild_of_readChild {node : String} {draft after : ActionDraft} {c : Element}
    (read : readChild b node s draft c = .succeed t after) : ReadsChild b node s draft c t after := by
  unfold readChild at read
  split at read
  · rename_i tag
    obtain ⟨rfl, done⟩ := Attempt.mk.inj read
    obtain ⟨target, leads, rfl⟩ := Except.map_eq_ok done
    exact .ok tag leads
  rename_i notOk
  split at read
  · rename_i tag
    obtain ⟨rfl, done⟩ := Attempt.mk.inj read
    obtain ⟨target, leads, rfl⟩ := Except.map_eq_ok done
    exact .error tag leads
  rename_i notError
  split at read
  · rename_i tag
    cases read
    exact .other tag
  · rename_i notOther
    obtain ⟨rfl, done⟩ := Attempt.mk.inj read
    obtain ⟨_, inherited, rfl⟩ := Except.map_eq_ok done
    refine .type ?_ (by rw [Attempt.succeed, ← inherited])
    simp only [otherActionChildren, List.mem_cons, List.not_mem_nil, or_false, not_or]
    exact ⟨notOk, notError, not_or.mp notOther⟩

theorem ReadsChild.readChild {node : String} {draft after : ActionDraft} {c : Element} (reads : ReadsChild b node s draft c t after) :
    Definition.readChild b node s draft c = .succeed t after := by
  cases reads with
  | ok tag leads =>
    rw [Definition.readChild, if_pos tag, leads]
    rfl
  | error tag leads =>
    rw [Definition.readChild, if_neg (by rw [tag]; decide), if_pos tag, leads]
    rfl
  | other tag =>
    rw [Definition.readChild, if_neg (by rcases tag with tag | tag <;> rw [tag] <;> decide),
      if_neg (by rcases tag with tag | tag <;> rw [tag] <;> decide), if_pos tag]
  | type runs inherited =>
    simp only [otherActionChildren, List.mem_cons, List.not_mem_nil, or_false, not_or] at runs
    rw [Definition.readChild, if_neg runs.1, if_neg runs.2.1, if_neg (by simp [runs]), inherited]
    rfl

theorem readAction_cons_iff {node : String} {draft after : ActionDraft} {c : Element} {rest : List Element} :
    readAction b node s draft (c :: rest) = .succeed t after ↔
      ∃ mid next, ReadsChild b node s draft c mid next ∧ readAction b node mid next rest = .succeed t after := by
  rw [readAction_cons]
  constructor
  · intro read
    obtain ⟨mid, next, first, onward⟩ := Attempt.andThen_eq_succeed read
    exact ⟨mid, next, readsChild_of_readChild first, onward⟩
  · rintro ⟨mid, next, first, onward⟩
    rw [first.readChild, Attempt.andThen_succeed, onward]

/-- What has been read of an action after its children. -/
structure ReadsAction (b : Builder) (node : String) (s : BuildState) (draft : ActionDraft) (children : List Element)
    (t : BuildState) (after : ActionDraft) : Prop where
  graph : t.graph = s.graph
  globals : t.globals = s.globals
  conf : match runs? children with
    | none => after.conf = draft.conf
    | some c => ∃ filled, inherit b.inheritance c s.globals b.layer (some node) = .succeed filled () ∧
        after.conf = some filled
  ok : (∃ c ∈ children, c.name = Tag.ok) ∨ draft.okTarget.isSome → after.okTarget.isSome
  error : (∃ c ∈ children, c.name = Tag.error) ∨ draft.errorTarget.isSome → after.errorTarget.isSome

theorem exists_named_of_cons {c : Element} {rest : List Element} {tag : String} (other : c.name ≠ tag)
    (present : ∃ d ∈ c :: rest, d.name = tag) : ∃ d ∈ rest, d.name = tag := by
  obtain ⟨d, member, same⟩ := present
  rcases List.mem_cons.mp member with rfl | later
  · exact absurd same other
  · exact ⟨d, later, same⟩

theorem readsAction_of_readAction {node : String} {draft after : ActionDraft} {children : List Element}
    (read : readAction b node s draft children = .succeed t after) : ReadsAction b node s draft children t after := by
  induction children generalizing s draft with
  | nil =>
    cases read
    exact ⟨rfl, rfl, rfl, by simp, by simp⟩
  | cons c rest ih =>
    obtain ⟨mid, next, first, onward⟩ := readAction_cons_iff.mp read
    have later := ih onward
    cases first with
    | ok tag leads =>
      refine ⟨later.graph, later.globals, ?_, fun _ => later.ok (.inr rfl), fun before => later.error (before.imp_left ?_)⟩
      · rw [runs?_cons_other (by simp [otherActionChildren, tag])]
        exact later.conf
      · exact exists_named_of_cons (by rw [tag]; decide)
    | error tag leads =>
      refine ⟨later.graph, later.globals, ?_, fun before => later.ok (before.imp_left ?_), fun _ => later.error (.inr rfl)⟩
      · rw [runs?_cons_other (by simp [otherActionChildren, tag])]
        exact later.conf
      · exact exists_named_of_cons (by rw [tag]; decide)
    | other tag =>
      refine ⟨later.graph, later.globals, ?_, fun before => later.ok (before.imp_left ?_),
        fun before => later.error (before.imp_left ?_)⟩
      · rw [runs?_cons_other (by rcases tag with tag | tag <;> simp [otherActionChildren, tag])]
        exact later.conf
      · exact exists_named_of_cons (by rcases tag with tag | tag <;> rw [tag] <;> decide)
      · exact exists_named_of_cons (by rcases tag with tag | tag <;> rw [tag] <;> decide)
    | @type runs filled inherited =>
      obtain ⟨graph, globals⟩ := propagate_keeps s c
      have other {tag : String} (foreign : tag ∈ otherActionChildren) : c.name ≠ tag := fun same => runs (same ▸ foreign)
      refine ⟨later.graph.trans graph, later.globals.trans globals, ?_,
        fun before => later.ok (before.imp_left (exists_named_of_cons (other (by decide)))),
        fun before => later.error (before.imp_left (exists_named_of_cons (other (by decide))))⟩
      have conf := later.conf
      rw [globals] at conf
      rw [runs?_cons runs]
      cases last : runs? rest with
      | none =>
        rw [last] at conf
        exact ⟨filled, inherited, conf⟩
      | some d =>
        rw [last] at conf
        exact conf

theorem writeElement_eq_ok_iff {text : String} : writeElement e = .ok text ↔ Markup.serialize e = .ok text := by
  unfold writeElement
  cases Markup.serialize e <;> simp

theorem finishAction_iff {node : String} {draft : ActionDraft} {conf : Dict String} {n : Node} :
    finishAction e node draft conf = .ok n ↔ ∃ ok error element text retryMax retryInterval,
      draft = ⟨some ok, some error, some element⟩ ∧ Markup.serialize element = .ok text ∧
      retryValue e Key.retryMax node conf = .ok retryMax ∧ retryValue e Key.retryInterval node conf = .ok retryInterval ∧
      n = ⟨node, .action ok error ⟨text, e.attribute? Key.credential, retryMax, retryInterval⟩⟩ := by
  constructor
  · intro finished
    obtain ⟨okTarget, errorTarget, conf⟩ := draft
    unfold finishAction at finished
    split at finished
    · cases finished
    rename_i element present
    split at finished
    · rename_i ok error onOk onError
      obtain ⟨text, written, finished⟩ := Except.bind_eq_ok finished
      obtain ⟨retryMax, most, finished⟩ := Except.bind_eq_ok finished
      obtain ⟨retryInterval, interval, finished⟩ := Except.bind_eq_ok finished
      cases present
      cases onOk
      cases onError
      cases finished
      exact ⟨ok, error, element, text, retryMax, retryInterval, rfl, writeElement_eq_ok_iff.mp written, most, interval, rfl⟩
    · cases finished
  · rintro ⟨ok, error, element, text, retryMax, retryInterval, rfl, written, most, interval, rfl⟩
    simp only [finishAction, writeElement_eq_ok_iff.mpr written, most, interval]
    rfl

theorem actionNode_iff {n : Node} : actionNode b s e = .succeed t n ↔ ∃ node draft, requireAttribute e Key.name = .ok node ∧
    readAction b node s {} e.children = .succeed t draft ∧ finishAction e node draft t.conf = .ok n := by
  unfold actionNode
  constructor
  · intro read
    split at read
    · cases read
    · rename_i node named
      obtain ⟨mid, draft, children, finished⟩ := Attempt.andThen_eq_succeed read
      obtain ⟨rfl, done⟩ := Attempt.mk.inj finished
      exact ⟨node, draft, named, children, done⟩
  · rintro ⟨node, draft, named, children, finished⟩
    simp only [named, children, Attempt.andThen_succeed, finished]
    rfl

/-- An action node runs what its element says, with all that it inherits. -/
theorem actionNode_eq_succeed {n : Node} (read : actionNode b s e = .succeed t n) :
    requireAttribute e Key.name = .ok n.name ∧ t.graph = s.graph ∧ t.globals = s.globals ∧
      ∃ c filled text ok error spec, runs? e.children = some c ∧
        inherit b.inheritance c s.globals b.layer (some n.name) = .succeed filled () ∧
        Markup.serialize filled = .ok text ∧ n.body = .action ok error spec ∧ spec.conf = text := by
  obtain ⟨node, draft, named, children, finished⟩ := actionNode_iff.mp read
  obtain ⟨ok, error, element, text, retryMax, retryInterval, rfl, written, _, _, rfl⟩ := finishAction_iff.mp finished
  have reads := readsAction_of_readAction children
  have conf := reads.conf
  cases type : runs? e.children with
  | none =>
    rw [type] at conf
    cases conf
  | some c =>
    rw [type] at conf
    obtain ⟨filled, inherited, same⟩ := conf
    cases same
    exact ⟨named, reads.graph, reads.globals, c, element, text, ok, error, _, rfl, inherited, written, rfl, rfl⟩

/-- A global section sets the defaults that it has after it inherited from the workflow that started this one. -/
theorem applyGlobals_eq_ok (applied : applyGlobals b s e = .ok t) :
    ∃ filled globals, GlobalDefaults.ofSection filled = .ok globals ∧ t = { s with globals := some globals } ∧
      match s.conf.get? globalsKey with
      | none => filled = e
      | some blob => ∃ inherited, GlobalDefaults.decode blob = .ok inherited ∧
          inherit b.inheritance e (some inherited) none none = .succeed filled () := by
  unfold applyGlobals at applied
  cases present : s.conf.get? globalsKey with
  | none =>
    rw [present] at applied
    obtain ⟨_, same, applied⟩ := Except.bind_eq_ok applied
    obtain ⟨globals, read, last⟩ := Except.bind_eq_ok applied
    cases same
    cases last
    exact ⟨e, globals, read, rfl, rfl⟩
  | some blob =>
    rw [present] at applied
    obtain ⟨inherited, decoded, applied⟩ := Except.bind_eq_ok applied
    obtain ⟨filled, resolved, applied⟩ := Except.bind_eq_ok applied
    obtain ⟨globals, read, last⟩ := Except.bind_eq_ok applied
    cases last
    obtain ⟨_, done, same⟩ := Except.map_eq_ok resolved
    refine ⟨filled, globals, read, rfl, inherited, decoded, ?_⟩
    rw [← same, Attempt.succeed, ← done]

/-! ### Nodes and the elements that declare them -/

/-- An element declares a node when it is read in a state. -/
def Declares (b : Builder) (s : BuildState) (e : Element) (n : Node) : Prop :=
  plainNode? e = some (.ok n) ∨ e.name = Tag.action ∧ ∃ t, actionNode b s e = .succeed t n

theorem Reads.nodes (reads : Reads b s e t) :
    t.graph.nodes = s.graph.nodes ∨ ∃ n, Declares b s e n ∧ t.graph.nodes = s.graph.nodes ++ [n] := by
  cases reads with
  | @node n graph declares added => exact .inr ⟨n, .inl declares, nodes_of_add added⟩
  | @action mid n graph tag read added =>
    refine .inr ⟨n, .inr ⟨tag, mid, read⟩, ?_⟩
    rw [← (actionNode_eq_succeed read).2.1]
    exact nodes_of_add added
  | globals tag applied =>
    obtain ⟨_, _, _, rfl, _⟩ := applyGlobals_eq_ok applied
    exact .inl rfl
  | passed tag => exact .inl rfl

theorem Builds.nodes_prefix {elements : List Element} (builds : Builds b s elements t) :
    s.graph.nodes <+: t.graph.nodes := by
  induction builds with
  | done => exact List.prefix_refl _
  | step first _ ih =>
    rcases first.nodes with same | ⟨n, _, more⟩
    · rwa [same] at ih
    · rw [more] at ih
      exact (List.prefix_append _ _).trans ih

/-- Every node that a build adds is declared by an element, in the state that the elements before it lead to. -/
theorem Builds.declared {elements : List Element} (builds : Builds b s elements t) {n : Node}
    (member : n ∈ t.graph.nodes) : n ∈ s.graph.nodes ∨ ∃ before e after mid, elements = before ++ e :: after ∧
      Builds b s before mid ∧ Declares b mid e n := by
  induction builds with
  | done => exact .inl member
  | @step s mid t e rest first _ ih =>
    rcases ih member with earlier | ⟨before, d, after, state, split, builds, declares⟩
    · rcases first.nodes with same | ⟨m, declares, more⟩
      · exact .inl (same ▸ earlier)
      · rw [more] at earlier
        rcases List.mem_append.mp earlier with earlier | new
        · exact .inl earlier
        · rw [List.mem_singleton.mp new]
          exact .inr ⟨[], e, rest, s, rfl, .done, declares⟩
    · exact .inr ⟨e :: before, d, after, state, congrArg (e :: ·) split, .step first builds, declares⟩

/-- The node of an element that declares one by itself is in the graph. -/
theorem Builds.has_node {elements : List Element} (builds : Builds b s elements t) (member : e ∈ elements)
    {n : Except Fault Node} (plain : plainNode? e = some n) : ∃ m, n = .ok m ∧ m ∈ t.graph.nodes := by
  induction builds with
  | done => cases member
  | @step s mid t d rest first onward ih =>
    rcases List.mem_cons.mp member with rfl | later
    · cases first with
      | @node m graph declares added =>
        rw [plain] at declares
        cases declares
        refine ⟨m, rfl, onward.nodes_prefix.subset ?_⟩
        rw [nodes_of_add added]
        exact List.mem_append_right _ (List.mem_singleton_self m)
      | action tag _ _ =>
        rw [plainNode?_action tag] at plain
        cases plain
      | globals tag _ =>
        rw [plainNode?_globals tag] at plain
        cases plain
      | passed tag =>
        rw [plainNode?_passed tag] at plain
        cases plain
    · exact ih later

/-- What a build gives, if it succeeds. -/
theorem build_eq_succeed {root : Element} {conf after : Dict String} {g : Graph}
    (built : build b root conf = .succeed after g) :
    ∃ name globals t, requireAttribute root Key.name = .ok name ∧ inheritedGlobals conf = .ok globals ∧
      Builds b ⟨.empty name, conf, globals, false⟩ root.children t ∧ t.conf = after ∧ t.graph = g ∧
      g.start?.isSome = true := by
  unfold build at built
  split at built
  · cases built
  · rename_i name named
    split at built
    · cases built
    · rename_i globals inherited
      dsimp only at built
      cases elements : buildElements b ⟨.empty name, conf, globals, false⟩ root.children with
      | mk t result =>
        rw [elements] at built
        cases result with
        | error fault => cases built
        | ok _ =>
          dsimp only at built
          split at built
          · rename_i started
            cases built
            exact ⟨name, globals, t, named, inherited, builds_of_buildElements elements, rfl, rfl, started⟩
          · cases built

end Definition
end WorkflowCompiler
