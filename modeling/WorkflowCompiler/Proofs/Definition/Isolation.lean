import Mathlib.Data.List.Forall2
import WorkflowCompiler.Proofs.ActionConf
import WorkflowCompiler.Proofs.Definition.Handing
import WorkflowCompiler.Proofs.Definition.Omission

/-!
What a workflow hands on does not come back to it. A definition and the same definition without the requests to
hand the defaults on (`quiet`) are read in step: the states agree in the defaults in effect and in all nodes but
those of the actions that asked, as long as no global section comes after an action that handed on what an earlier
section had set (`Alike`, `build_isolated`). Where one does, it is filled in from the workflow's own defaults.
-/
namespace WorkflowCompiler.Definition
open Markup (Element)

/-- An element without a request to hand the defaults on. -/
def withoutRequest (e : Element) : Element :=
  if e.name = Tag.subWorkflow then e.without Tag.propagateConfiguration else e

/-- An element of a definition that hands nothing on. -/
def quietElement (e : Element) : Element :=
  if e.name = Tag.action then { e with children := e.children.map withoutRequest } else e

/-- A definition that hands nothing on. -/
def quiet (root : Element) : Element := { root with children := root.children.map quietElement }

/-- The node of an action that runs another workflow and asks to hand the defaults on to it. -/
def AsksOn (elements : List Element) (n : Node) : Prop :=
  ∃ e ∈ elements, e.name = Tag.action ∧ requireAttribute e Key.name = .ok n.name ∧ (runs? e.children).any propagates = true

/-- Whether an expression refers to a variable. -/
def RefersTo (expression name : String) : Prop :=
  ∃ body, Piece.reference body ∈ pieces expression.toList ∧ String.ofList (Text.trimChars body) = name

/-- How often an action is tried again does not depend on a variable. -/
def RetriesIgnore (name : String) (e : Element) : Prop :=
  ∀ key ∈ [Key.retryMax, Key.retryInterval], ∀ raw, e.attribute? key = some raw → ¬ RefersTo raw name

/-! ### Expressions -/

section
variable {conf other : Dict String}

theorem substitute_congr {ps : List Piece}
    (same : ∀ body, .reference body ∈ ps → conf.get? (.ofList (Text.trimChars body)) = other.get? (.ofList (Text.trimChars body))) :
    substitute conf ps = substitute other ps := by
  induction ps with
  | nil => rfl
  | cons p rest ih =>
    have later := ih fun body member => same body (List.mem_cons_of_mem _ member)
    cases p with
    | literal c => rw [substitute, substitute, later]
    | reference body => rw [substitute, substitute, resolveReference, resolveReference, same body List.mem_cons_self, later]

/-- An expression depends on the variables that it refers to. -/
theorem resolveExpression_congr {expression : String} (same : ∀ name, RefersTo expression name → conf.get? name = other.get? name) :
    resolveExpression expression conf = resolveExpression expression other := by
  rw [resolveExpression, resolveExpression, substitute_congr fun body member => same _ ⟨body, member, rfl⟩]

theorem retryValue_congr {e : Element} {key : String} (member : key ∈ [Key.retryMax, Key.retryInterval])
    (ignores : RetriesIgnore globalsKey e) (same : ∀ name, name ≠ globalsKey → conf.get? name = other.get? name) (node : String) :
    retryValue e key node conf = retryValue e key node other := by
  unfold retryValue
  cases present : e.attribute? key with
  | none => rfl
  | some raw =>
    have resolved : resolveExpression raw conf = resolveExpression raw other :=
      resolveExpression_congr fun name refers => same name fun equal => ignores key member raw present (equal ▸ refers)
    simp only [resolved]

end

/-! ### Nodes -/

/-- Nodes that differ at most in what an action runs. -/
inductive SameBut (n : Node) : Node → Prop
  | refl : SameBut n n
  | text {ok error : String} {spec : ActionSpec} (action : n.body = .action ok error spec) (text : String) :
      SameBut n ⟨n.name, .action ok error { spec with conf := text }⟩

namespace SameBut
variable {n m : Node}

theorem name (same : SameBut n m) : m.name = n.name := by
  cases same with
  | refl => rfl
  | text _ _ => rfl

theorem kind (same : SameBut n m) : m.kind = n.kind := by
  cases same with
  | refl => rfl
  | text action _ => rw [Node.kind, Node.kind, action]

end SameBut

/-- Graphs whose nodes differ at most in what those actions run of which something holds. -/
structure GraphsAlike (asks : Node → Prop) (g h : Graph) : Prop where
  unsealed : h.isSealed = g.isSealed
  nodes : List.Forall₂ (fun n m => SameBut n m ∧ (¬ asks n → m = n)) g.nodes h.nodes

theorem map_eq_of_forall₂ {α β : Type} {R : α → α → Prop} {f : α → β} (each : ∀ x y, R x y → f y = f x) {xs ys : List α}
    (paired : List.Forall₂ R xs ys) : ys.map f = xs.map f := by
  induction paired with
  | nil => rfl
  | cons first _ ih => rw [List.map_cons, List.map_cons, each _ _ first, ih]

theorem mem_of_forall₂ {α : Type} {R : α → α → Prop} {x : α} (kept : ∀ y, R x y → y = x) {xs ys : List α}
    (paired : List.Forall₂ R xs ys) (member : x ∈ xs) : x ∈ ys := by
  induction paired with
  | nil => cases member
  | cons first _ ih =>
    rcases List.mem_cons.mp member with rfl | later
    · rw [kept _ first]
      exact List.mem_cons_self
    · exact List.mem_cons_of_mem _ (ih later)

namespace GraphsAlike
variable {asks : Node → Prop} {g h : Graph}

theorem names (alike : GraphsAlike asks g h) : h.nodes.map Node.name = g.nodes.map Node.name :=
  map_eq_of_forall₂ (fun _ _ both => both.1.name) alike.nodes

theorem mem (alike : GraphsAlike asks g h) {n : Node} (member : n ∈ g.nodes) (silent : ¬ asks n) : n ∈ h.nodes :=
  mem_of_forall₂ (fun _ both => both.2 silent) alike.nodes member

theorem starts (alike : GraphsAlike asks g h) (started : g.start?.isSome = true) : h.start?.isSome = true := by
  have of_kinds (g : Graph) : g.start?.isSome = true ↔ NodeKind.start ∈ g.nodes.map Node.kind := by
    simp [Graph.start?]
  have kinds := map_eq_of_forall₂ (fun _ _ both => both.1.kind) alike.nodes
  rw [of_kinds, kinds]
  exact (of_kinds g).mp started

theorem add (alike : GraphsAlike asks g h) {n m : Node} {grown : Graph} (added : g.add n = .ok grown) (same : SameBut n m)
    (silent : ¬ asks n → m = n) : ∃ grown', h.add m = .ok grown' ∧ GraphsAlike asks grown grown' := by
  unfold Graph.add at added
  split at added
  · cases added
  · rename_i unsealed
    split at added
    · cases added
    · rename_i fresh
      cases added
      have absent : h.find? m.name = none := by
        rw [Graph.find?_eq_none_iff, alike.names, same.name]
        exact Graph.find?_eq_none_iff.mp fresh
      unfold Graph.add
      rw [if_neg (by rw [alike.unsealed]; exact unsealed)]
      split
      · rename_i found
        rw [absent] at found
        cases found
      · exact ⟨_, rfl, rfl, List.rel_append alike.nodes (.cons ⟨same, silent⟩ .nil)⟩

end GraphsAlike

/-! ### Actions -/

variable {b : Builder} {s t u : BuildState} {e c filled : Element} {node : String}

theorem withoutRequest_name (e : Element) : (withoutRequest e).name = e.name := by
  rw [withoutRequest]
  split
  · rfl
  · rfl

theorem withoutRequest_other (other : e.name ≠ Tag.subWorkflow) : withoutRequest e = e := if_neg other

theorem withoutRequest_of_silent (silent : propagates e = false) : withoutRequest e = e := by
  rw [withoutRequest]
  split
  · rename_i runs
    have none : e.child? Tag.propagateConfiguration = none := by simpa [propagates, runs] using silent
    rw [Element.child?, List.find?_eq_none] at none
    have all : e.children.filter (fun c => c.name != Tag.propagateConfiguration) = e.children :=
      List.filter_eq_self.mpr fun c member => by simpa using none c member
    cases e
    exact congrArg (Element.mk _ _ _) all
  · rfl

theorem propagates_withoutRequest (e : Element) : propagates (withoutRequest e) = false := by
  rw [propagates, withoutRequest]
  split
  · simp [Element.child?, Element.without]
  · rename_i other
    simp [other]

theorem inherit_withoutRequest {i : Inheritance} {globals : Option GlobalDefaults} {layer : Option (Dict String)}
    {node : Option String} (done : inherit i e globals layer node = .succeed filled ()) :
    inherit i (withoutRequest e) globals layer node = .succeed (withoutRequest filled) () := by
  rw [withoutRequest, withoutRequest, (inherits_of_inherit done).name]
  split
  · exact inherit_without (by decide) (by decide) done
  · exact done

theorem serialize_withoutRequest {text : String} (written : Markup.serialize e = .ok text) :
    ∃ text, Markup.serialize (withoutRequest e) = .ok text := by
  rw [withoutRequest]
  split
  · rename_i runs
    exact Markup.serialize_without written (by rw [runs]; decide) (by rw [runs]; decide) (by rw [runs]; decide) _
  · exact ⟨text, written⟩

theorem propagate_withoutRequest (s : BuildState) (e : Element) : propagate s (withoutRequest e) = s := by
  rw [propagate_eq, propagates_withoutRequest]
  rfl

/-- Without its request a child of an action is read in the same way, and nothing is handed on. -/
theorem ReadsChild.quiet {draft after : ActionDraft} (reads : ReadsChild b node s draft c t after) (same : u.globals = s.globals) :
    ReadsChild b node u { draft with conf := draft.conf.map withoutRequest } (withoutRequest c) u
      { after with conf := after.conf.map withoutRequest } := by
  cases reads with
  | ok tag leads =>
    rw [withoutRequest_other (by rw [tag]; decide)]
    exact .ok tag leads
  | error tag leads =>
    rw [withoutRequest_other (by rw [tag]; decide)]
    exact .error tag leads
  | other tag => exact .other (by rwa [withoutRequest_name])
  | type runs inherited =>
    have quiet := inherit_withoutRequest inherited
    rw [← same] at quiet
    have reads : ReadsChild b node u { draft with conf := draft.conf.map withoutRequest } (withoutRequest c)
        (propagate u (withoutRequest c)) _ := .type (by rwa [withoutRequest_name]) quiet
    rwa [propagate_withoutRequest] at reads

theorem ReadsChild.globals {draft after : ActionDraft} (reads : ReadsChild b node s draft c t after) : t.globals = s.globals := by
  cases reads with
  | type => exact (propagate_keeps s c).2
  | _ => rfl

/-- Without requests the children of an action are read in the same way, and nothing is handed on. -/
theorem readAction_quiet {draft after : ActionDraft} {children : List Element}
    (read : readAction b node s draft children = .succeed t after) (same : u.globals = s.globals) :
    readAction b node u { draft with conf := draft.conf.map withoutRequest } (children.map withoutRequest) =
      .succeed u { after with conf := after.conf.map withoutRequest } := by
  induction children generalizing s draft with
  | nil =>
    cases read
    rfl
  | cons c rest ih =>
    obtain ⟨mid, next, first, onward⟩ := readAction_cons_iff.mp read
    exact readAction_cons_iff.mpr ⟨u, _, first.quiet same, ih onward (same.trans first.globals.symm)⟩

theorem actionNode_quiet {n : Node} (tag : e.name = Tag.action) (read : actionNode b s e = .succeed t n)
    (globals : u.globals = s.globals) (conf : ∀ name, name ≠ globalsKey → t.conf.get? name = u.conf.get? name)
    (retries : RetriesIgnore globalsKey e) : ∃ m, actionNode b u (quietElement e) = .succeed u m ∧ SameBut n m ∧
      ((runs? e.children).any propagates = false → m = n) := by
  have quieted : quietElement e = { e with children := e.children.map withoutRequest } := if_pos tag
  obtain ⟨node, draft, named, children, finished⟩ := actionNode_iff.mp read
  obtain ⟨ok, error, filled, text, retryMax, retryInterval, rfl, written, most, interval, rfl⟩ := finishAction_iff.mp finished
  obtain ⟨text', written'⟩ := serialize_withoutRequest written
  have again := readAction_quiet (u := u) children globals
  have named' : requireAttribute (quietElement e) Key.name = .ok node := by rw [quieted]; exact named
  have finished' : finishAction (quietElement e) node ⟨some ok, some error, some (withoutRequest filled)⟩ u.conf =
      .ok ⟨node, .action ok error ⟨text', e.attribute? Key.credential, retryMax, retryInterval⟩⟩ := by
    rw [finishAction_iff, quieted]
    refine ⟨ok, error, _, text', retryMax, retryInterval, rfl, written', ?_, ?_, rfl⟩
    · rw [← most]
      exact (retryValue_congr (by simp) retries conf node).symm
    · rw [← interval]
      exact (retryValue_congr (by simp) retries conf node).symm
  refine ⟨_, ?_, .text rfl text', fun silent => ?_⟩
  · refine actionNode_iff.mpr ⟨node, ⟨some ok, some error, some (withoutRequest filled)⟩, named', ?_, finished'⟩
    rw [quieted]
    exact again
  · have reads := (readsAction_of_readAction children).conf
    cases runs : runs? e.children with
    | none =>
      rw [runs] at reads
      cases reads
    | some type =>
      rw [runs] at reads silent
      obtain ⟨filled, inherited, same⟩ := reads
      cases same
      have unchanged := inherit_withoutRequest inherited
      rw [withoutRequest_of_silent silent, inherited] at unchanged
      rw [← (Attempt.mk.inj unchanged).1, written] at written'
      cases written'
      rfl

/-! ### Definitions -/

variable {conf : Dict String} {inherited : Option GlobalDefaults} {past elements : List Element}

/-- Where a definition and the same definition without requests have been read as far. -/
structure Alike (elements : List Element) (conf : Dict String) (s u : BuildState) : Prop where
  globals : u.globals = s.globals
  conf : u.conf = conf
  graphs : GraphsAlike (AsksOn elements) s.graph u.graph

/-- Handing defaults on changes no other entry of the job configuration. -/
theorem Traces.get?_conf (traces : Traces b conf inherited past s) {name : String} (other : name ≠ globalsKey) :
    s.conf.get? name = conf.get? name := by
  cases propagated : s.propagated with
  | false => rw [(traces.kept propagated).1]
  | true =>
    obtain ⟨_, _, _, g, _, _, _, same⟩ := traces.handed propagated
    rw [same, Dict.get?_put, if_neg other]

theorem quietElement_other (other : e.name ≠ Tag.action) : quietElement e = e := if_neg other

theorem Alike.reads (alike : Alike elements conf s u) (start : inheritedGlobals conf = .ok inherited)
    (traces : Traces b conf inherited past s) (undisturbed : Undisturbed (past ++ [e])) (member : e ∈ elements)
    (retries : e.name = Tag.action → RetriesIgnore globalsKey e) (reads : Reads b s e t) :
    ∃ v, Reads b u (quietElement e) v ∧ Alike elements conf t v := by
  have after := traces.step start undisturbed reads
  cases reads with
  | node declares added =>
    obtain ⟨grown, added', graphs⟩ := alike.graphs.add added .refl fun _ => rfl
    rw [quietElement_other fun tag => by rw [plainNode?_action tag] at declares; cases declares]
    exact ⟨_, .node declares added', alike.globals, alike.conf, graphs⟩
  | @action mid n graph tag read added =>
    obtain ⟨named, sameGraph, sameGlobals, type, _, _, _, _, _, runs, _⟩ := actionNode_eq_succeed read
    have other : ∀ name, name ≠ globalsKey → mid.conf.get? name = u.conf.get? name := fun name other => by
      rw [alike.conf]
      exact after.get?_conf other
    obtain ⟨m, read', same, silent⟩ := actionNode_quiet tag read alike.globals other (retries tag)
    have graphs := alike.graphs
    rw [← sameGraph] at graphs
    have silent' : ¬ AsksOn elements n → m = n := fun silence => by
      refine silent (Bool.eq_false_iff.mpr fun asks => silence ⟨e, member, tag, named, asks⟩)
    obtain ⟨grown, added', graphs⟩ := graphs.add added same silent'
    have tag' : (quietElement e).name = Tag.action := by rw [quietElement, if_pos tag]; exact tag
    exact ⟨_, .action tag' read' added', alike.globals.trans sameGlobals.symm, alike.conf, graphs⟩
  | globals tag applied =>
    rw [applyGlobals_eq, traces.inherited_at_section start undisturbed tag] at applied
    obtain ⟨handed, same, applied⟩ := Except.bind_eq_ok applied
    cases same
    obtain ⟨g, set, applied⟩ := Except.bind_eq_ok applied
    cases applied
    rw [quietElement_other (by rw [tag]; decide)]
    refine ⟨{ u with globals := some g }, .globals tag ?_, rfl, alike.conf, alike.graphs⟩
    rw [applyGlobals_eq, alike.conf, start]
    simp only [set, bind, Except.bind]
    rfl
  | passed tag =>
    rw [quietElement_other fun same => by rw [same] at tag; exact absurd tag (by decide)]
    exact ⟨u, .passed tag, alike⟩

theorem Alike.builds (alike : Alike elements conf s u) (start : inheritedGlobals conf = .ok inherited)
    (traces : Traces b conf inherited past s) {rest : List Element} (undisturbed : Undisturbed (past ++ rest))
    (members : ∀ e ∈ rest, e ∈ elements) (retries : ∀ e ∈ rest, e.name = Tag.action → RetriesIgnore globalsKey e)
    (builds : Builds b s rest t) : ∃ v, Builds b u (rest.map quietElement) v ∧ Alike elements conf t v := by
  -- both runs go one element further at a time; the traces of the first say what a section finds in the configuration
  induction builds generalizing past u with
  | done => exact ⟨u, .done, alike⟩
  | @step s mid t e rest first _ ih =>
    rw [List.append_cons] at undisturbed
    have here := undisturbed.sublist (List.sublist_append_left _ rest)
    obtain ⟨v, read, alike⟩ := alike.reads start traces here (members e List.mem_cons_self) (retries e List.mem_cons_self) first
    obtain ⟨w, onward, alike⟩ := ih alike (traces.step start here first) undisturbed
      (fun e member => members e (List.mem_cons_of_mem _ member)) fun e member => retries e (List.mem_cons_of_mem _ member)
    exact ⟨w, .step read onward, alike⟩

theorem build_of_builds {root : Element} {name : String} (named : requireAttribute root Key.name = .ok name)
    (start : inheritedGlobals conf = .ok inherited) (builds : Builds b ⟨.empty name, conf, inherited, false⟩ root.children t)
    (started : t.graph.start?.isSome = true) : build b root conf = .succeed t.conf t.graph := by
  rw [build]
  simp only [named, start, buildElements_of_builds builds, Attempt.succeed, started]
  rfl

/-- The defaults that an action takes are those of the last global section before it, filled in from what the workflow was
    handed; and without the requests to hand defaults on, the workflow is built all the same, and the actions that made no
    request stay as they are. -/
theorem build_isolated {root : Element} {after : Dict String} {g : Graph} (built : build b root conf = .succeed after g)
    (undisturbed : Undisturbed root.children) : ∃ inherited, inheritedGlobals conf = .ok inherited ∧
      (∀ n ∈ g.nodes, ∀ ok error spec, n.body = .action ok error spec → ∃ before e later type globals filled,
        root.children = before ++ e :: later ∧ e.name = Tag.action ∧ requireAttribute e Key.name = .ok n.name ∧
        runs? e.children = some type ∧ effective b.inheritance inherited before = .ok globals ∧
        inherit b.inheritance type globals b.layer (some n.name) = .succeed filled () ∧ Markup.serialize filled = .ok spec.conf) ∧
      ((∀ e ∈ root.children, e.name = Tag.action → RetriesIgnore globalsKey e) → ∃ h, build b (quiet root) conf = .succeed conf h ∧
        h.nodes.map Node.name = g.nodes.map Node.name ∧ ∀ n ∈ g.nodes, ¬ AsksOn root.children n → n ∈ h.nodes) := by
  obtain ⟨name, inherited, t, named, start, builds, rfl, rfl, started⟩ := build_eq_succeed built
  have begins := Traces.start b conf inherited name
  refine ⟨inherited, start, fun n member ok error spec action => ?_, fun retries => ?_⟩
  · obtain ⟨before, e, later, s, type, filled, split, upTo, tag, key, runs, done, written⟩ := builds.runs member action
    have inEffect : effective b.inheritance inherited before = .ok s.globals := by
      have sofar : before.Sublist root.children := by rw [split]; exact List.sublist_append_left _ _
      exact (begins.builds start (undisturbed.sublist sofar) upTo).globals
    exact ⟨before, e, later, type, s.globals, filled, split, tag, key, runs, inEffect, done, written⟩
  · have alike : Alike root.children conf ⟨.empty name, conf, inherited, false⟩ ⟨.empty name, conf, inherited, false⟩ :=
      ⟨rfl, rfl, rfl, .nil⟩
    obtain ⟨v, quietBuilds, alike⟩ := alike.builds start begins undisturbed (fun _ member => member) retries builds
    refine ⟨v.graph, ?_, alike.graphs.names, fun n member silent => alike.graphs.mem member silent⟩
    have named' : requireAttribute (quiet root) Key.name = .ok name := named
    have built' := build_of_builds named' start quietBuilds (alike.graphs.starts started)
    rw [alike.conf] at built'
    exact built'

/-- One section cannot be filled in from another. -/
theorem undisturbed_of_one {elements : List Element} (one : (elements.filter fun e => e.name == Tag.globals).length ≤ 1) :
    Undisturbed elements := by
  intro first action last found isFirst _ isLast
  have both : ([first, last].filter fun e => e.name == Tag.globals).Sublist (elements.filter fun e => e.name == Tag.globals) :=
    (List.Sublist.trans (by simp) found).filter _
  have length := both.length_le
  simp [isFirst, isLast] at length
  omega

/-! ### A workflow that hands its defaults on -/

theorem add_fresh {g : Graph} {n : Node} (unsealed : g.isSealed = false) (fresh : n.name ∉ g.nodes.map Node.name) :
    ∃ h, g.add n = .ok h ∧ h.nodes = g.nodes ++ [n] ∧ h.isSealed = false := by
  unfold Graph.add
  rw [unsealed]
  split
  · contradiction
  · split
    · rename_i m found
      rw [Graph.find?_eq_none_iff.mpr fresh] at found
      cases found
    · exact ⟨_, rfl, rfl, rfl⟩

theorem Builds.append {first second : List Element} (here : Builds b s first t) (onward : Builds b t second u) :
    Builds b s (first ++ second) u := by
  induction here with
  | done => exact onward
  | step read _ ih => exact .step read (ih onward)

/-- An action that runs one element. -/
def actionOf (name : String) (type : Element) : Element where
  name := Tag.action
  attributes := [(Key.name, name)]
  children := [type, { name := Tag.ok, attributes := [(Key.target, "y")] }, { name := Tag.error, attributes := [(Key.target, "y")] }]

theorem actionNode_actionOf {name text : String} {type : Element} (visible : Text.isBlankText name = false)
    (runs : type.name ∉ otherActionChildren) (inherited : inherit b.inheritance type s.globals b.layer (some name) = .succeed filled ())
    (written : Markup.serialize filled = .ok text) :
    actionNode b s (actionOf name type) = .succeed (propagate s type) ⟨name, .action "y" "y" { conf := text }⟩ := by
  have named : requireAttribute (actionOf name type) Key.name = .ok name := by
    simp [requireAttribute, actionOf, Element.attribute?, visible]
  have children : readAction b name s {} (actionOf name type).children =
      .succeed (propagate s type) ⟨some "y", some "y", some filled⟩ :=
    readAction_cons_iff.mpr ⟨_, _, .type runs inherited, by rfl⟩
  exact actionNode_iff.mpr ⟨name, _, named, children,
    finishAction_iff.mpr ⟨"y", "y", filled, text, none, none, rfl, written, rfl, rfl, rfl⟩⟩

/-- A workflow with a global section, an action, more elements, and an action on files. -/
def relay (globals type : Element) (more : List Element) : Element where
  name := Tag.root
  attributes := [(Key.name, "w")]
  children := [{ name := Tag.start, attributes := [(Key.target, "s")] }, globals, actionOf "s" type] ++ more ++
    [actionOf "x" { name := Tag.fileSystem }, { name := Tag.finish, attributes := [(Key.name, "y")] }]

/-- The nodes of such a workflow, with the texts of its actions. -/
def relayNodes (text text' : String) : List Node :=
  [⟨startName, .start ["s"]⟩, ⟨"s", .action "y" "y" { conf := text }⟩, ⟨"x", .action "y" "y" { conf := text' }⟩, ⟨"y", .finish []⟩]

theorem build_relay (b : Builder) (globals type : Element) (more : List Element) (conf handed : Dict String)
    (inherited : Option GlobalDefaults) (set last : GlobalDefaults) {sent : Bool} {filled filled' : Element} {text text' : String}
    (tag : globals.name = Tag.globals) (start : inheritedGlobals conf = .ok inherited)
    (sets : sectionDefaults b.inheritance inherited globals = .ok set)
    (runs : type.name ∉ otherActionChildren)
    (first : inherit b.inheritance type (some set) b.layer (some "s") = .succeed filled ())
    (written : Markup.serialize filled = .ok text)
    (hands : ∀ g, propagate ⟨g, conf, some set, false⟩ type = ⟨g, handed, some set, sent⟩)
    (between : ∀ g, Builds b ⟨g, handed, some set, sent⟩ more ⟨g, handed, some last, sent⟩)
    (second : inherit b.inheritance { name := Tag.fileSystem } (some last) b.layer (some "x") = .succeed filled' ())
    (written' : Markup.serialize filled' = .ok text') :
    ∃ g, build b (relay globals type more) conf = .succeed handed g ∧ g.nodes = relayNodes text text' := by
  obtain ⟨g₁, added₁, nodes₁, open₁⟩ := add_fresh (g := .empty "w") (n := ⟨startName, .start ["s"]⟩) rfl (by decide)
  obtain ⟨g₂, added₂, nodes₂, open₂⟩ := add_fresh (n := ⟨"s", .action "y" "y" { conf := text }⟩) open₁
    (by rw [nodes₁]; simp [startName, Graph.empty])
  obtain ⟨g₃, added₃, nodes₃, open₃⟩ := add_fresh (n := ⟨"x", .action "y" "y" { conf := text' }⟩) open₂
    (by rw [nodes₂, nodes₁]; simp [startName, Graph.empty])
  obtain ⟨g₄, added₄, nodes₄, _⟩ := add_fresh (n := ⟨"y", .finish []⟩) open₃
    (by rw [nodes₃, nodes₂, nodes₁]; simp [startName, Graph.empty])
  have nodes : g₄.nodes = relayNodes text text' := by
    rw [nodes₄, nodes₃, nodes₂, nodes₁]
    rfl
  have applied : applyGlobals b ⟨g₁, conf, inherited, false⟩ globals = .ok ⟨g₁, conf, some set, false⟩ := by
    rw [applyGlobals_eq, start]
    simp only [bind, Except.bind, sets]
    rfl
  have runsFirst : actionNode b ⟨g₁, conf, some set, false⟩ (actionOf "s" type) =
      .succeed ⟨g₁, handed, some set, sent⟩ ⟨"s", .action "y" "y" { conf := text }⟩ := by
    rw [← hands]
    exact actionNode_actionOf (by decide) runs first written
  have silent : propagate ⟨g₂, handed, some last, sent⟩ { name := Tag.fileSystem } = ⟨g₂, handed, some last, sent⟩ := by
    rw [propagate_eq, propagates_eq_false (by decide)]
    rfl
  have runsSecond : actionNode b ⟨g₂, handed, some last, sent⟩ (actionOf "x" { name := Tag.fileSystem }) =
      .succeed (propagate ⟨g₂, handed, some last, sent⟩ { name := Tag.fileSystem }) ⟨"x", .action "y" "y" { conf := text' }⟩ :=
    actionNode_actionOf (by decide) (by decide) second written'
  rw [silent] at runsSecond
  have begins : Builds b ⟨.empty "w", conf, inherited, false⟩
      [{ name := Tag.start, attributes := [(Key.target, "s")] }, globals, actionOf "s" type] ⟨g₂, handed, some set, sent⟩ :=
    .step (.node rfl added₁) (.step (.globals tag applied) (.step (.action rfl runsFirst added₂) .done))
  have ends : Builds b ⟨g₂, handed, some last, sent⟩
      [actionOf "x" { name := Tag.fileSystem }, { name := Tag.finish, attributes := [(Key.name, "y")] }] ⟨g₄, handed, some last, sent⟩ :=
    .step (.action rfl runsSecond added₃) (.step (.node rfl added₄) .done)
  have started : g₄.start?.isSome = true := by
    rw [Graph.start?, nodes]
    rfl
  have named : requireAttribute (relay globals type more) Key.name = .ok "w" := by rfl
  exact ⟨g₄, build_of_builds named start ((begins.append (between g₂)).append ends) started, nodes⟩

/-- An element that runs another workflow and asks for the defaults. -/
def asking : Element := { name := Tag.subWorkflow, children := [{ name := Tag.propagateConfiguration }] }

/-- A global section with a name node and a job tracker. -/
def relaySection : Element := { name := Tag.globals, children := [.ofText Tag.nameNode "n", .ofText Tag.jobTracker "t"] }

def relayDefaults : GlobalDefaults := { nameNode := some "n", jobTracker := some "t" }

/-- The job configuration that hands the defaults of that section down. -/
def relayConf : Dict String := Dict.empty.put globalsKey relayDefaults.encode

/-- The builder without a site. -/
def relayBuilder : Builder := Compiler.builder {} none

theorem retriesIgnore_actionOf (name : String) (type : Element) (ignored : String) : RetriesIgnore ignored (actionOf name type) := by
  intro key member raw present
  have none : (actionOf name type).attribute? key = none := by
    simp only [List.mem_cons, List.not_mem_nil, or_false] at member
    rcases member with rfl | rfl
    · rfl
    · rfl
  rw [none] at present
  cases present

theorem retriesIgnore_relay (type : Element) {more : List Element} (others : ∀ e ∈ more, e.name ≠ Tag.action) (ignored : String) :
    ∀ e ∈ (relay relaySection type more).children, e.name = Tag.action → RetriesIgnore ignored e := by
  intro e member tag
  simp only [relay, List.cons_append, List.nil_append, List.mem_cons, List.mem_append, List.not_mem_nil, or_false] at member
  rcases member with rfl | rfl | rfl | between | rfl | rfl
  · exact absurd tag (by decide)
  · exact absurd tag (by decide)
  · exact retriesIgnore_actionOf _ _ _
  · exact absurd tag (others e between)
  · exact retriesIgnore_actionOf _ _ _
  · exact absurd tag (by decide)

def askingText : String :=
  "<sub-workflow>\n  <propagate-configuration/>\n  <name-node>n</name-node>\n  <job-tracker>t</job-tracker>\n</sub-workflow>"

def namedFilesText : String := "<fs>\n  <name-node>n</name-node>\n  <configuration/>\n</fs>"

theorem serialize_asking :
    Markup.serialize ((asking.append (.ofText Tag.nameNode "n")).append (.ofText Tag.jobTracker "t")) = .ok askingText :=
  Except.eq_ok_of_toOption (by decide +kernel)

theorem serialize_namedFiles :
    Markup.serialize { name := Tag.fileSystem, children := [.ofText Tag.nameNode "n", { name := Tag.configuration }] } =
      .ok namedFilesText :=
  Except.eq_ok_of_toOption (by decide +kernel)

theorem build_relay_asking : ∃ g, build relayBuilder (relay relaySection asking []) .empty = .succeed relayConf g ∧
    g.nodes = relayNodes askingText namedFilesText :=
  build_relay relayBuilder relaySection asking [] .empty relayConf none relayDefaults relayDefaults rfl rfl (by rfl) (by decide)
    (by rfl) serialize_asking (fun _ => rfl) (fun _ => .done) (by rfl) serialize_namedFiles

theorem build_isolated_relay : ∃ g h, build relayBuilder (relay relaySection asking []) .empty = .succeed relayConf g ∧
    Undisturbed (relay relaySection asking []).children ∧
    (∀ e ∈ (relay relaySection asking []).children, e.name = Tag.action → RetriesIgnore globalsKey e) ∧
    build relayBuilder (quiet (relay relaySection asking [])) .empty = .succeed .empty h ∧
    h.nodes.map Node.name = g.nodes.map Node.name ∧ ∀ n ∈ g.nodes, ¬ AsksOn (relay relaySection asking []).children n → n ∈ h.nodes := by
  obtain ⟨g, built, _⟩ := build_relay_asking
  have undisturbed : Undisturbed (relay relaySection asking []).children := undisturbed_of_one (by decide)
  have retries := retriesIgnore_relay asking (List.forall_mem_nil _) globalsKey
  obtain ⟨inherited, _, _, silent⟩ := build_isolated built undisturbed
  obtain ⟨h, again, names, kept⟩ := silent retries
  exact ⟨g, h, built, undisturbed, retries, again, names, kept⟩

def blankSection : Element := { name := Tag.globals }

theorem serialize_silent : Markup.serialize
    { name := Tag.subWorkflow, children := [.ofText Tag.nameNode "n", .ofText Tag.jobTracker "t"] } =
      .ok "<sub-workflow>\n  <name-node>n</name-node>\n  <job-tracker>t</job-tracker>\n</sub-workflow>" :=
  Except.eq_ok_of_toOption (by decide +kernel)

theorem serialize_bareFiles : Markup.serialize { name := Tag.fileSystem, children := [{ name := Tag.configuration }] } =
    .ok "<fs>\n  <configuration/>\n</fs>" :=
  Except.eq_ok_of_toOption (by decide +kernel)

/-- A section after the request is filled in from the section before it, and only because of the request. -/
theorem relay_feeds_back : ∃ g h n, build relayBuilder (relay relaySection asking [blankSection]) .empty = .succeed relayConf g ∧
    (∀ e ∈ (relay relaySection asking [blankSection]).children, e.name = Tag.action → RetriesIgnore globalsKey e) ∧
    build relayBuilder (quiet (relay relaySection asking [blankSection])) .empty = .succeed .empty h ∧
    n ∈ g.nodes ∧ ¬ AsksOn (relay relaySection asking [blankSection]).children n ∧ n ∉ h.nodes := by
  have refilled : sectionDefaults relayBuilder.inheritance (some relayDefaults) blankSection =
      .ok { relayDefaults with configuration := some .empty } := by rfl
  have between (g : Graph) : Builds relayBuilder ⟨g, relayConf, some relayDefaults, true⟩ [blankSection]
      ⟨g, relayConf, some { relayDefaults with configuration := some .empty }, true⟩ := by
    refine .step (.globals rfl ?_) .done
    rw [applyGlobals_eq, relayConf, inheritedGlobals_put]
    simp only [bind, Except.bind, refilled]
    rfl
  obtain ⟨g, built, nodes⟩ := build_relay relayBuilder relaySection asking [blankSection] .empty relayConf none relayDefaults
    { relayDefaults with configuration := some .empty } rfl rfl (by rfl) (by decide) (by rfl) serialize_asking (fun _ => rfl)
    between (by rfl) serialize_namedFiles
  obtain ⟨h, quietBuilt, quietNodes⟩ := build_relay relayBuilder relaySection { name := Tag.subWorkflow } [blankSection] .empty
    .empty none relayDefaults {} rfl rfl (by rfl) (by decide) (by rfl) serialize_silent (fun _ => rfl)
    (fun _ => .step (.globals rfl rfl) .done) (by rfl) serialize_bareFiles
  have same : quiet (relay relaySection asking [blankSection]) =
      relay relaySection { name := Tag.subWorkflow } [blankSection] := by rfl
  refine ⟨g, h, ⟨"x", .action "y" "y" { conf := namedFilesText }⟩, built, retriesIgnore_relay asking (by decide) _, same ▸ quietBuilt,
    ?_, ?_, ?_⟩
  · rw [nodes]
    simp [relayNodes]
  · rintro ⟨e, member, tag, named, asks⟩
    simp only [relay, List.cons_append, List.nil_append, List.mem_cons, List.not_mem_nil, or_false] at member
    rcases member with rfl | rfl | rfl | rfl | rfl | rfl
    · exact absurd tag (by decide)
    · exact absurd tag (by decide)
    · have other : requireAttribute (actionOf "s" asking) Key.name = .ok "s" := by rfl
      rw [other] at named
      exact absurd (Except.ok.inj named) (by decide)
    · exact absurd tag (by decide)
    · exact absurd asks (by decide)
    · exact absurd tag (by decide)
  · rw [quietNodes]
    simp [relayNodes, startName, namedFilesText]

end WorkflowCompiler.Definition
