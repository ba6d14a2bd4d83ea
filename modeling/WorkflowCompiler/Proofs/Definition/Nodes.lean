import Mathlib.Data.List.Forall2
import WorkflowCompiler.Compiler
import WorkflowCompiler.Proofs.Definition.Build
import WorkflowCompiler.Proofs.Definition.Language
import WorkflowCompiler.Proofs.Trail

/-!
The nodes of a definition. Every element that declares a node gives one that leads where the element says (`NodeOf`), and a graph
that a build returns holds these nodes and no others: the one of the start element first, the others in the order of their
elements (`Depicts`, `build_depicts`). A definition whose elements would declare two nodes of one name has no graph.
-/
namespace WorkflowCompiler
open Markup (Element)

namespace Definition

/-- The elements other than the start that declare a node. -/
def nodeTags : List String := [Tag.finish, Tag.kill, Tag.fork, Tag.join, Tag.decision, Tag.action]

/-- The children of a definition that declare its nodes, the start apart. -/
def nodeElements (root : Element) : List Element := root.children.filter fun c => c.name ∈ nodeTags

/-- The node that an element declares: its name, and the names of the nodes it leads to. -/
inductive NodeOf (e : Element) : Node → Prop
  | start {target : String} (tag : e.name = Tag.start) (leads : e.attribute? Key.target = some target) :
      NodeOf e ⟨startName, .start [target]⟩
  | finish {name : String} (tag : e.name = Tag.finish) (named : e.attribute? Key.name = some name) : NodeOf e ⟨name, .finish []⟩
  | kill {name : String} (tag : e.name = Tag.kill) (named : e.attribute? Key.name = some name) :
      NodeOf e ⟨name, .kill (e.childText? Tag.message) []⟩
  | fork {name : String} {targets : List String} (tag : e.name = Tag.fork) (named : e.attribute? Key.name = some name)
      (paths : (e.childrenNamed Tag.forkPath).map (Element.attribute? · Key.start) = targets.map some) :
      NodeOf e ⟨name, .fork targets⟩
  | join {name target : String} (tag : e.name = Tag.join) (named : e.attribute? Key.name = some name)
      (leads : e.attribute? Key.target = some target) : NodeOf e ⟨name, .join [target]⟩
  | decision {name text otherwise : String} {targets : List String} {switch last : Element} (tag : e.name = Tag.decision)
      (named : e.attribute? Key.name = some name) (branches : e.child? Tag.switch = some switch)
      (cases : (switch.childrenNamed Tag.switchCase).map (Element.attribute? · Key.target) = targets.map some)
      (default : switch.child? Tag.switchDefault = some last) (leads : last.attribute? Key.target = some otherwise)
      (written : Markup.serialize switch = .ok text) : NodeOf e ⟨name, .decision text (targets ++ [otherwise])⟩
  | action {name ok error : String} {spec : ActionSpec} (tag : e.name = Tag.action) (named : e.attribute? Key.name = some name)
      (onOk : (e.childrenNamed Tag.ok).getLast?.bind (Element.attribute? · Key.target) = some ok)
      (onError : (e.childrenNamed Tag.error).getLast?.bind (Element.attribute? · Key.target) = some error) :
      NodeOf e ⟨name, .action ok error spec⟩

/-- A graph shows a definition: it lists the start node and then a node for each other element that declares one, in the order of
    the elements. -/
structure Depicts (root : Element) (g : Graph) : Prop where
  nodes : ∃ first start others, root.childrenNamed Tag.start = [first] ∧ NodeOf first start ∧
    List.Forall₂ NodeOf (nodeElements root) others ∧ g.list = start :: others
  distinct : (g.list.map Node.name).Nodup
  size : g.list.length = g.size

/-- The elements of a definition would declare two nodes of one name: a start element, whatever its attributes, declares one of
    the name that is kept for it, and the others declare nodes of the names they have. -/
inductive Clashing (root : Element) : Prop
  | starts (several : 1 < (root.childrenNamed Tag.start).length)
  | names {e d : Element} (pair : [e, d].Sublist (nodeElements root)) {name : String} (left : e.attribute? Key.name = some name)
      (right : d.attribute? Key.name = some name)
  | reserved {e : Element} (member : e ∈ nodeElements root) (named : e.attribute? Key.name = some startName)

variable {b : Builder} {s t : BuildState} {e c root : Element} {n : Node} {node key tag : String} {draft after : ActionDraft}
  {rest elements : List Element}

theorem attribute?_of_requireAttribute {value : String} (read : requireAttribute e key = .ok value) :
    e.attribute? key = some value := by
  unfold requireAttribute at read
  split at read
  · cases read
  · rename_i found
    split at read
    · cases read
    · cases read
      exact found

theorem attributes_of_mapM {values : List String} (read : elements.mapM (fun c => requireAttribute c key) = .ok values) :
    elements.map (Element.attribute? · key) = values.map some := by
  induction elements generalizing values with
  | nil =>
    cases read
    rfl
  | cons c rest ih =>
    rw [List.mapM_cons] at read
    obtain ⟨value, first, read⟩ := Except.bind_eq_ok read
    obtain ⟨others, later, read⟩ := Except.bind_eq_ok read
    cases read
    rw [List.map_cons, List.map_cons, attribute?_of_requireAttribute first, ih later]

theorem nodeOf_of_plainNode? (declares : plainNode? e = some (.ok n)) : NodeOf e n := by
  cases plainNode_of_plainNode? declares with
  | start tag leads => exact .start tag (attribute?_of_requireAttribute leads)
  | finish tag named => exact .finish tag (attribute?_of_requireAttribute named)
  | kill tag named => exact .kill tag (attribute?_of_requireAttribute named)
  | fork tag named paths => exact .fork tag (attribute?_of_requireAttribute named) (attributes_of_mapM paths)
  | join tag named leads => exact .join tag (attribute?_of_requireAttribute named) (attribute?_of_requireAttribute leads)
  | decision tag named branches default cases' leads written =>
    exact .decision tag (attribute?_of_requireAttribute named) branches (attributes_of_mapM cases') default
      (attribute?_of_requireAttribute leads) (writeElement_eq_ok_iff.mp written)

/-! ### Where actions lead -/

/-- Where the last of the children of a name leads, or what was known before if there is none. -/
def lastTarget (tag : String) (before : Option String) (children : List Element) : Option String :=
  (children.filter fun c => c.name == tag).getLast?.elim before (Element.attribute? · Key.target)

theorem lastTarget_cons (before : Option String) : lastTarget tag before (c :: rest) =
    lastTarget tag (if c.name = tag then c.attribute? Key.target else before) rest := by
  by_cases same : c.name = tag
  · simp only [lastTarget, List.filter_cons, same, beq_self_eq_true, if_true, List.getLast?_cons, Option.elim_some]
    cases (rest.filter fun c => c.name == tag).getLast? <;> rfl
  · simp [lastTarget, same]

theorem lastTarget_none : lastTarget tag none e.children = (e.childrenNamed tag).getLast?.bind (Element.attribute? · Key.target) := by
  rw [lastTarget, Element.childrenNamed]
  cases (e.children.filter fun c => c.name == tag).getLast? <;> rfl

/-- What reading a child of an action does to where the action leads. -/
theorem ReadsChild.targets {mid : BuildState} {next : ActionDraft} (reads : ReadsChild b node s draft c mid next) :
    next.okTarget = (if c.name = Tag.ok then c.attribute? Key.target else draft.okTarget) ∧
      next.errorTarget = (if c.name = Tag.error then c.attribute? Key.target else draft.errorTarget) := by
  cases reads with
  | ok tag leads => exact ⟨by rw [if_pos tag, attribute?_of_requireAttribute leads], (if_neg (by rw [tag]; decide)).symm⟩
  | error tag leads => exact ⟨(if_neg (by rw [tag]; decide)).symm, by rw [if_pos tag, attribute?_of_requireAttribute leads]⟩
  | other tag =>
    exact ⟨(if_neg (by rcases tag with tag | tag <;> rw [tag] <;> decide)).symm,
      (if_neg (by rcases tag with tag | tag <;> rw [tag] <;> decide)).symm⟩
  | type runs =>
    have other {tag : String} (foreign : tag ∈ otherActionChildren) : c.name ≠ tag := fun same => runs (same ▸ foreign)
    exact ⟨(if_neg (other (by decide))).symm, (if_neg (other (by decide))).symm⟩

/-- A later `ok` or `error` takes the place of an earlier one. -/
theorem targets_of_readAction {children : List Element} (read : readAction b node s draft children = .succeed t after) :
    after.okTarget = lastTarget Tag.ok draft.okTarget children ∧
      after.errorTarget = lastTarget Tag.error draft.errorTarget children := by
  induction children generalizing s draft with
  | nil =>
    cases read
    exact ⟨rfl, rfl⟩
  | cons c rest ih =>
    obtain ⟨mid, next, first, onward⟩ := readAction_cons_iff.mp read
    obtain ⟨ok, error⟩ := first.targets
    rw [lastTarget_cons, lastTarget_cons, ← ok, ← error]
    exact ih onward

theorem nodeOf_of_actionNode (tag : e.name = Tag.action) (read : actionNode b s e = .succeed t n) : NodeOf e n := by
  obtain ⟨node, draft, named, children, finished⟩ := actionNode_iff.mp read
  obtain ⟨ok, error, _, _, _, _, rfl, _, _, _, rfl⟩ := finishAction_iff.mp finished
  obtain ⟨onOk, onError⟩ := targets_of_readAction children
  rw [lastTarget_none] at onOk onError
  exact .action tag (attribute?_of_requireAttribute named) onOk.symm onError.symm

theorem Declares.nodeOf (declares : Declares b s e n) : NodeOf e n := by
  rcases declares with plain | ⟨tag, t, read⟩
  · exact nodeOf_of_plainNode? plain
  · exact nodeOf_of_actionNode tag read

/-! ### One node for each element -/

namespace NodeOf

theorem kind_text (nodeOf : NodeOf e n) : n.kind.text = e.name := by
  cases nodeOf with
  | start tag => exact tag.symm
  | finish tag => exact tag.symm
  | kill tag => exact tag.symm
  | fork tag => exact tag.symm
  | join tag => exact tag.symm
  | decision tag => exact tag.symm
  | action tag => exact tag.symm

theorem tag_mem (nodeOf : NodeOf e n) : e.name ∈ Tag.start :: nodeTags := by
  rw [← nodeOf.kind_text]
  cases n.kind <;> decide

theorem kind_eq_start_iff (nodeOf : NodeOf e n) : n.kind = .start ↔ e.name = Tag.start := by
  rw [← nodeOf.kind_text]
  cases n.kind <;> decide

theorem name_of_start (nodeOf : NodeOf e n) (start : n.kind = .start) : n.name = startName := by
  cases nodeOf with
  | start => rfl
  | _ => cases start

theorem named (nodeOf : NodeOf e n) (other : e.name ≠ Tag.start) : e.attribute? Key.name = some n.name := by
  cases nodeOf with
  | start tag => exact absurd tag other
  | finish _ named => exact named
  | kill _ named => exact named
  | fork _ named => exact named
  | join _ named => exact named
  | decision _ named => exact named
  | action _ named => exact named

end NodeOf

/-- Reading an element adds the node that it declares, and no other. -/
theorem Reads.nodeOf (reads : Reads b s e t) : ∃ added, t.graph.nodes = s.graph.nodes ++ added ∧
    List.Forall₂ NodeOf ([e].filter fun c => c.name ∈ Tag.start :: nodeTags) added := by
  have one {n : Node} (nodeOf : NodeOf e n) : List.Forall₂ NodeOf ([e].filter fun c => c.name ∈ Tag.start :: nodeTags) [n] := by
    rw [List.filter_cons_of_pos (by simpa using nodeOf.tag_mem)]
    exact .cons nodeOf .nil
  have none (foreign : e.name ∉ Tag.start :: nodeTags) :
      List.Forall₂ NodeOf ([e].filter fun c => c.name ∈ Tag.start :: nodeTags) [] := by
    rw [List.filter_cons_of_neg (by simpa using foreign)]
    exact .nil
  cases reads with
  | @node n graph declares added => exact ⟨[n], nodes_of_add added, one (nodeOf_of_plainNode? declares)⟩
  | @action mid n graph tag read added =>
    refine ⟨[n], ?_, one (nodeOf_of_actionNode tag read)⟩
    rw [← (actionNode_eq_succeed read).2.1]
    exact nodes_of_add added
  | globals tag applied =>
    obtain ⟨_, _, _, rfl, _⟩ := applyGlobals_eq_ok applied
    exact ⟨[], (List.append_nil _).symm, none (by rw [tag]; decide)⟩
  | passed tag =>
    refine ⟨[], (List.append_nil _).symm, none fun listed => ?_⟩
    simp only [isPassedOver, Bool.or_eq_true, beq_iff_eq] at tag
    rcases tag with (tag | tag) | tag
    all_goals
      rw [tag] at listed
      exact absurd listed (by decide)

/-- A build adds a node for each element that declares one, in the order of the elements. -/
theorem Builds.nodeOf (builds : Builds b s elements t) : ∃ added, t.graph.nodes = s.graph.nodes ++ added ∧
    List.Forall₂ NodeOf (elements.filter fun c => c.name ∈ Tag.start :: nodeTags) added := by
  induction builds with
  | done => exact ⟨[], (List.append_nil _).symm, .nil⟩
  | @step s mid t e rest first _ ih =>
    obtain ⟨new, now, nodeOf⟩ := first.nodeOf
    obtain ⟨added, later, others⟩ := ih
    refine ⟨new ++ added, by rw [later, now, List.append_assoc], ?_⟩
    rw [← List.singleton_append (l := rest), List.filter_append]
    exact List.rel_append nodeOf others

end Definition

/-! ### The list of a graph -/

namespace Graph

variable {g : Graph} {start : Node}

/-- Where the name of the start node is kept for start nodes, there is one of them. -/
theorem filter_start (first : g.start? = some start) (reserved : ∀ n ∈ g.nodes, n.kind = .start → n.name = startName) :
    g.nodes.filter (fun n => n.kind == .start) = [start] := by
  have member := mem_of_start? first
  have kind := kind_of_start? first
  have only : ∀ n ∈ g.nodes, (n.kind == .start) = (n == start) := fun n other => by
    rw [Bool.eq_iff_iff, beq_iff_eq, beq_iff_eq]
    refine ⟨fun same => eq_of_name_eq other member ?_, fun same => same ▸ kind⟩
    rw [reserved n other same, reserved start member kind]
  rw [List.filter_congr only, List.filter_beq, List.count_eq_one_of_mem (List.Nodup.of_map _ g.distinct) member]
  rfl

theorem list_eq_cons (first : g.start? = some start) (name : start.name = startName) :
    g.list = start :: g.nodes.filter fun n => n.kind != .start := by
  rw [list, ← name, find?_of_mem (mem_of_start? first), Option.toList_some, List.singleton_append]

/-- Every node is listed once. -/
theorem list_perm (first : g.start? = some start) (reserved : ∀ n ∈ g.nodes, n.kind = .start → n.name = startName) :
    g.list.Perm g.nodes := by
  have name := reserved start (mem_of_start? first) (kind_of_start? first)
  rw [list_eq_cons first name, ← List.singleton_append, ← filter_start first reserved]
  exact List.filter_append_perm (fun n => n.kind == .start) g.nodes

end Graph

namespace Definition

variable {nodes : List Node} {conf conf' : Dict String} {g : Graph}

theorem forall₂_starts (nodeOf : List.Forall₂ NodeOf elements nodes) :
    List.Forall₂ NodeOf (elements.filter fun c => c.name == Tag.start) (nodes.filter fun n => n.kind == .start) :=
  List.rel_filter (fun e n nodeOf => by simpa using nodeOf.kind_eq_start_iff.symm) nodeOf

theorem forall₂_others (nodeOf : List.Forall₂ NodeOf elements nodes) :
    List.Forall₂ NodeOf (elements.filter fun c => c.name != Tag.start) (nodes.filter fun n => n.kind != .start) :=
  List.rel_filter (fun e n nodeOf => by simpa using not_congr nodeOf.kind_eq_start_iff.symm) nodeOf

theorem ne_start_of_mem_nodeTags (listed : tag ∈ nodeTags) : tag ≠ Tag.start := by
  rintro rfl
  exact absurd listed (by decide)

theorem filter_starts (root : Element) :
    ((root.children.filter fun c => c.name ∈ Tag.start :: nodeTags).filter fun c => c.name == Tag.start) =
      root.childrenNamed Tag.start := by
  rw [List.filter_filter, Element.childrenNamed]
  refine List.filter_congr fun c _ => ?_
  by_cases same : c.name = Tag.start <;> simp [same]

theorem filter_others (root : Element) :
    ((root.children.filter fun c => c.name ∈ Tag.start :: nodeTags).filter fun c => c.name != Tag.start) = nodeElements root := by
  rw [List.filter_filter, nodeElements]
  refine List.filter_congr fun c _ => ?_
  by_cases same : c.name = Tag.start
  · have foreign : Tag.start ∉ nodeTags := by decide
    simp [same, foreign]
  · simp [same]

theorem depicts_of_build (built : build b root conf = .succeed conf' g) : Depicts root g := by
  obtain ⟨name, globals, t, _, _, builds, _, rfl, started⟩ := build_eq_succeed built
  obtain ⟨start, first⟩ := Option.isSome_iff_exists.mp started
  -- A node comes from an element, and of those only a start element makes one of that kind, under the name that is kept for it.
  have reserved : ∀ n ∈ t.graph.nodes, n.kind = .start → n.name = startName := fun n member kind => by
    obtain none | ⟨_, _, _, _, _, _, declares⟩ := builds.declared member
    · cases none
    · exact declares.nodeOf.name_of_start kind
  obtain ⟨added, (rfl : t.graph.nodes = added), nodeOf⟩ := builds.nodeOf
  have starts := forall₂_starts nodeOf
  have others := forall₂_others nodeOf
  rw [filter_starts, Graph.filter_start first reserved] at starts
  rw [filter_others] at others
  have perm := Graph.list_perm first reserved
  refine ⟨?_, (perm.map Node.name).nodup_iff.mpr t.graph.distinct, perm.length_eq⟩
  cases only : root.childrenNamed Tag.start with
  | nil => rw [only] at starts; cases starts
  | cons e more =>
    rw [only] at starts
    obtain ⟨startOf, ⟨⟩⟩ := List.forall₂_cons.mp starts
    exact ⟨e, start, _, rfl, startOf, others,
      Graph.list_eq_cons first (reserved start (Graph.mem_of_start? first) (Graph.kind_of_start? first))⟩

theorem names_eq (nodeOf : List.Forall₂ NodeOf elements nodes) (other : ∀ e ∈ elements, e.name ≠ Tag.start) :
    elements.map (Element.attribute? · Key.name) = (nodes.map Node.name).map some := by
  induction nodeOf with
  | nil => rfl
  | cons first _ ih =>
    obtain ⟨notStart, other⟩ := List.forall_mem_cons.mp other
    rw [List.map_cons, first.named notStart, ih other, List.map_cons, List.map_cons]

/-- The names of the elements are those of the nodes, so they are different from each other and from that of the start node. -/
theorem Depicts.distinct_names (depicts : Depicts root g) :
    (some startName :: (nodeElements root).map (Element.attribute? · Key.name)).Nodup := by
  obtain ⟨first, start, others, only, startOf, nodeOf, list⟩ := depicts.nodes
  have tag : first.name = Tag.start := (mem_childrenNamed.mp (only ▸ List.mem_singleton_self first)).2
  have distinct := depicts.distinct
  rw [list, List.map_cons, startOf.name_of_start (startOf.kind_eq_start_iff.mpr tag)] at distinct
  rw [names_eq nodeOf fun e member => ne_start_of_mem_nodeTags (by simpa using (List.mem_filter.mp member).2), ← List.map_cons]
  exact distinct.map fun _ _ => Option.some.inj

theorem Depicts.not_clashing (depicts : Depicts root g) : ¬ Clashing root := by
  have distinct := depicts.distinct_names
  obtain ⟨unreserved, names⟩ := List.nodup_cons.mp distinct
  intro clashing
  cases clashing with
  | starts several =>
    obtain ⟨first, _, _, only, _⟩ := depicts.nodes
    rw [only] at several
    exact absurd several (Nat.lt_irrefl _)
  | @names e d pair name left right =>
    have twice := names.sublist (pair.map (Element.attribute? · Key.name))
    simp [left, right] at twice
  | @reserved e member named => exact unreserved (List.mem_map.mpr ⟨e, member, named⟩)

/-- A graph that a build returns shows the definition, and a definition with a clash of names has no graph. -/
theorem build_depicts (b : Builder) (root : Element) (conf : Dict String) :
    (∀ conf' g, build b root conf = .succeed conf' g → Depicts root g) ∧
      (Clashing root → ∃ fault, (build b root conf).result = .error fault) := by
  refine ⟨fun conf' g => depicts_of_build, fun clashing => ?_⟩
  cases built : build b root conf with
  | mk conf' result =>
    cases result with
    | error fault => exact ⟨fault, rfl⟩
    | ok g => exact absurd clashing (depicts_of_build built).not_clashing

/-- An end that takes the name that is kept for the start node. -/
def reservedEnd : Element := elementNamed Tag.root "w" [elementTo Tag.start startName, elementNamed Tag.finish startName []]

theorem build_depicts_everyKind :
    (∃ conf g, build (Compiler.builder {} none) (everyKind wholeAction) .empty = .succeed conf g ∧ Depicts (everyKind wholeAction) g) ∧
    ∃ fault, Clashing reservedEnd ∧ (build (Compiler.builder {} none) reservedEnd .empty).result = .error fault := by
  constructor
  · have builds : (build (Compiler.builder {} none) (everyKind wholeAction) .empty).result.isOk = true := by decide +kernel
    cases built : build (Compiler.builder {} none) (everyKind wholeAction) .empty with
    | mk conf result =>
      cases result with
      | error fault => rw [built] at builds; cases builds
      | ok g => exact ⟨conf, g, rfl, (build_depicts _ _ _).1 conf g built⟩
  · have clashing : Clashing reservedEnd := .reserved (e := elementNamed Tag.finish startName []) (List.mem_singleton_self _) rfl
    obtain ⟨fault, failed⟩ := (build_depicts (Compiler.builder {} none) reservedEnd .empty).2 clashing
    exact ⟨fault, clashing, failed⟩

end Definition
end WorkflowCompiler
