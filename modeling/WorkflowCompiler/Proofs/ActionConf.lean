import WorkflowCompiler.Proofs.Compile
import WorkflowCompiler.Proofs.Definition.Configuration
import WorkflowCompiler.Proofs.Markup.Faithful

/-!
What the text of an action node says. It is read back as the element that the
action runs, whose configuration holds four layers, one over the other: the site's
configuration, the default of the call, the global defaults where the action
stands, and the properties of the element itself (`Compiler.conf_readsAs`). Only
the reader's limit on replacements can make the text of a node unreadable, and only
where the node cannot be reached.
-/
namespace WorkflowCompiler
open Markup (Element SimpleName CleanText)

theorem Dict.empty_overlay {α : Type} (d : Dict α) : empty.overlay d = d := d.ofList_entries

namespace Definition
variable {b : Builder} {s t : BuildState} {e : Element}

theorem addNode_ok {n : Node} {graph : Graph} (added : s.graph.add n = .ok graph) :
    addNode s (.ok n) = .succeed { s with graph := graph } () := by
  unfold addNode
  simp only [added]

theorem buildElement_of_reads (reads : Reads b s e t) : buildElement b s e = .succeed t () := by
  rw [buildElement_eq]
  cases reads with
  | node declares added =>
    rw [declares]
    exact addNode_ok added
  | action tag read added =>
    rw [plainNode?_action tag]
    simp only [if_pos tag, read, Attempt.andThen_succeed]
    exact addNode_ok added
  | globals tag applied =>
    have other : e.name ≠ Tag.action := fun same => absurd (tag.symm.trans same) (by decide)
    rw [plainNode?_globals tag]
    simp only [if_neg other, if_pos tag, applied]
    rfl
  | passed tag =>
    have action : e.name ≠ Tag.action := fun same => by rw [same] at tag; exact absurd tag (by decide)
    have globals : e.name ≠ Tag.globals := fun same => by rw [same] at tag; exact absurd tag (by decide)
    rw [plainNode?_passed tag]
    simp only [if_neg action, if_neg globals, if_pos tag]

theorem buildElements_of_builds {elements : List Element} (builds : Builds b s elements t) :
    buildElements b s elements = .succeed t () := by
  induction builds with
  | done => rfl
  | step first _ ih => rw [buildElements, buildElement_of_reads first, Attempt.andThen_succeed, ih]

/-- An action node of a build runs what an element says that declares an action, with all that this inherits there. -/
theorem Builds.runs {name : String} {conf : Dict String} {globals : Option GlobalDefaults} {elements : List Element}
    (builds : Builds b ⟨.empty name, conf, globals, false⟩ elements t) {n : Node} (member : n ∈ t.graph.nodes)
    {ok error : String} {spec : ActionSpec} (action : n.body = .action ok error spec) :
    ∃ before e later s type filled, elements = before ++ e :: later ∧ Builds b ⟨.empty name, conf, globals, false⟩ before s ∧
      e.name = Tag.action ∧ requireAttribute e Key.name = .ok n.name ∧ runs? e.children = some type ∧
      inherit b.inheritance type s.globals b.layer (some n.name) = .succeed filled () ∧ Markup.serialize filled = .ok spec.conf := by
  rcases builds.declared member with none | ⟨before, e, later, s, split, upTo, plain | ⟨tag, _, read⟩⟩
  · cases none
  · cases plainNode_of_plainNode? plain <;> cases action
  · obtain ⟨key, _, _, type, filled, text, _, _, _, runs, done, written, body, rfl⟩ := actionNode_eq_succeed read
    rw [action] at body
    cases body
    exact ⟨before, e, later, s, type, filled, split, upTo, tag, key, runs, done, written⟩

theorem mem_of_runs? {children : List Element} {type : Element} (runs : runs? children = some type) : type ∈ children :=
  List.mem_of_mem_filter (List.mem_of_getLast? runs)

/-- A build comes to an element in the state that the elements before it lead to. -/
def ComesTo (b : Builder) (root : Element) (conf : Dict String) (s : BuildState) (e : Element) : Prop :=
  ∃ name globals before after, requireAttribute root Key.name = .ok name ∧ inheritedGlobals conf = .ok globals ∧
    root.children = before ++ e :: after ∧ buildElements b ⟨.empty name, conf, globals, false⟩ before = .succeed s ()

end Definition

open Definition

/-- A configuration in which every key has the value of the highest layer that gives it one, and keys stand in the
    order in which they first appear from the lowest layer on. -/
structure Merges (layers : List (Dict String)) (merged : Dict String) : Prop where
  values : ∀ key, merged.get? key = Dict.highest? layers key
  order : merged.keys = (layers.flatMap Dict.keys).eraseDups

theorem merges_stack (layers : List (Dict String)) : Merges layers (.stack layers) :=
  ⟨Dict.get?_stack layers, Dict.keys_stack layers⟩

namespace Compiler
variable {c : Compiler} {definition : String} {conf : Dict String} {layer : Option (Dict String)} {compiled : Compiled}

/-- The layers of the configuration of an action, the lowest first. -/
def layers (c : Compiler) (layer : Option (Dict String)) (globals : Option GlobalDefaults) (own : Dict String) :
    List (Dict String) :=
  [c.site.configuration, layer.getD .empty, (globals.bind GlobalDefaults.configuration).getD .empty, own]

theorem stack_layers (c : Compiler) (layer : Option (Dict String)) (globals : Option GlobalDefaults) (own : Dict String) :
    Dict.stack (configurationLayers (c.builder layer).layer globals own) = .stack (c.layers layer globals own) := by
  simp only [configurationLayers, layers, builder, Option.getD_some, Dict.stack, List.foldl_cons, List.foldl_nil, Dict.empty_overlay]

/-- A tree that says what an element runs with the layers below it. -/
structure ReadsAs (c : Compiler) (layer : Option (Dict String)) (globals : Option GlobalDefaults) (type tree : Element) : Prop where
  name : tree.name = type.name
  configuration : (c.registry.get? type.name).any ActionType.supportsConfiguration = true →
    ∃ own first merged, ownConfiguration type = .ok own ∧ tree.child? Tag.configuration = some first ∧
      readConfiguration first = .ok merged ∧ Merges (c.layers layer globals own) merged

theorem readsAs_reread {globals : Option GlobalDefaults} {type filled : Element}
    (inherits : Inherits (c.builder layer).inheritance globals (c.builder layer).layer type filled)
    (settled : type.Every Markup.Settled) (site : CleanConfiguration c.site.configuration)
    (bottom : CleanConfiguration (layer.getD .empty)) (clean : CleanGlobals globals) :
    ReadsAs c layer globals type filled.reread where
  name := by rw [Element.reread_eq]; exact inherits.name
  configuration supports := by
    have takes : takesConfiguration type.name (c.registry.get? type.name) = true := by
      rw [takesConfiguration]
      cases known : c.registry.get? type.name with
      | none => simp [known] at supports
      | some descriptor =>
        have merges : descriptor.supportsConfiguration = true := by simpa [known] using supports
        simp [merges]
    obtain ⟨own, found, written⟩ := inherits.configuration takes
    have lowest : CleanConfiguration ((c.builder layer).layer.getD .empty) := site.overlay bottom
    have merged := clean.layers lowest (ownConfiguration_clean settled found)
    refine ⟨own, _, _, found, ?_, readConfiguration_configurationElement merged, ?_⟩
    · rw [Element.child?_reread, written, Option.map_some, reread_configurationElement merged]
    · rw [stack_layers]
      exact merges_stack _

/-- The text of an action node is read as what the action runs, with its configuration merged from all layers. -/
theorem conf_readsAs (done : (c.compile definition conf layer).result = .ok compiled) {root : Element}
    (parsed : Markup.parse definition = .ok root) (simple : root.Every SimpleNames)
    (site : CleanConfiguration c.site.configuration) (bottom : CleanConfiguration (layer.getD .empty))
    (inherited : ∀ globals, inheritedGlobals (verifyParameters root conf).state = .ok globals → CleanGlobals globals)
    {n : Node} (member : n ∈ compiled.graph.nodes) {ok error : String} {spec : ActionSpec} (action : n.body = .action ok error spec) :
    ∃ s e type filled, ComesTo (c.builder layer) root (verifyParameters root conf).state s e ∧ e.name = Tag.action ∧
      requireAttribute e Key.name = .ok n.name ∧ runs? e.children = some type ∧ Markup.serialize filled = .ok spec.conf ∧
      (compiled.graph.Reachable n ∨ filled.references ≤ Markup.expansionLimit →
        ∃ tree, Markup.parse spec.conf = .ok tree ∧ ReadsAs c layer s.globals type tree) := by
  obtain ⟨root', settledConf, after, g, stages⟩ := stages_of_compile done
  rw [stages.parsed] at parsed
  cases parsed
  obtain ⟨settled, flat⟩ := Markup.sound_of_parse stages.parsed
  obtain ⟨name, globals, t, named, handed, builds, _, rfl, _⟩ := build_eq_succeed stages.built
  rw [stages.compiled] at member
  obtain ⟨before, e, later, s, type, filled, split, upTo, tag, key, runs, done, written⟩ := builds.runs member action
  have element : e ∈ root.children := by rw [split]; simp
  have child := mem_of_runs? runs
  have settledType := (settled.inside e element).inside type child
  have inherits := inherits_of_inherit done
  have printable := inherits.printable ((simple.inside e element).inside type child) settledType
  have depth : filled.depth ≤ Markup.nestingLimit + 1 := by
    have outer := depth_child element
    have inner := depth_child child
    exact inherits.depth (by omega) (by decide)
  rw [stages.verified] at inherited ⊢
  refine ⟨s, e, type, filled, ⟨name, globals, before, later, named, handed, split, buildElements_of_builds upTo⟩, tag, key, runs, written, ?_⟩
  have start := CleanState.start inherited handed name
  have clean := (start.builds (fun e before => settled.inside e (by rw [split]; exact List.mem_append_left _ before)) upTo).globals
  obtain ⟨text, same, reads⟩ := Markup.parse_serialize printable depth
  rw [written] at same
  cases same
  rintro (reachable | small)
  · obtain ⟨first, begins, explored⟩ := Graph.explored_of_checkStructure stages.checked
    rw [stages.compiled] at reachable
    obtain ⟨tree, parsed, _⟩ := (explored.wellFormed begins).typed n _ _ _ reachable action
    obtain ⟨_, rfl⟩ := (reads tree).mp parsed
    exact ⟨_, parsed, readsAs_reread inherits settledType site bottom clean⟩
  · exact ⟨_, (reads _).mpr ⟨small, rfl⟩, readsAs_reread inherits settledType site bottom clean⟩

end Compiler

/-! ### A workflow with one action -/

open Compiler

/-- An action that works on files. -/
def sampleAction : Element :=
  { name := Tag.action
    attributes := [(Key.name, "x")]
    children := [{ name := Tag.fileSystem }, { name := Tag.ok, attributes := [(Key.target, "y")] },
      { name := Tag.error, attributes := [(Key.target, "y")] }] }

/-- A workflow that begins with a given node, and has an action and an end node. -/
def sampleWorkflow (first : String) : Element :=
  { name := Tag.root
    attributes := [(Key.name, "w")]
    children := [{ name := Tag.start, attributes := [(Key.target, first)] }, sampleAction,
      { name := Tag.finish, attributes := [(Key.name, "y")] }] }

/-- What the action runs with a default layer. -/
def sampleElement (layer : Dict String) : Element := { name := Tag.fileSystem, children := [configurationElement layer] }

def sampleGraph (first text : String) : Graph where
  name := "w"
  nodes := [⟨startName, .start [first]⟩, ⟨"x", .action "y" "y" { conf := text }⟩, ⟨"y", .finish []⟩]
  distinct := (by decide : [startName, "x", "y"].Nodup)

theorem actionNode_sampleAction (layer : Dict String) {text : String}
    (written : Markup.serialize (sampleElement layer) = .ok text) (graph : Graph) :
    actionNode (builder {} (some layer)) ⟨graph, .empty, none, false⟩ sampleAction =
      .succeed ⟨graph, .empty, none, false⟩ ⟨"x", .action "y" "y" { conf := text }⟩ := by
  have filled : inherit (builder {} (some layer)).inheritance { name := Tag.fileSystem } none (builder {} (some layer)).layer
      (some "x") = .succeed (sampleElement (Dict.empty.overlay (Dict.empty.overlay layer))) () := by rfl
  rw [Dict.empty_overlay, Dict.empty_overlay] at filled
  have children : readAction (builder {} (some layer)) "x" ⟨graph, .empty, none, false⟩ {} sampleAction.children =
      .succeed ⟨graph, .empty, none, false⟩ ⟨some "y", some "y", some (sampleElement layer)⟩ :=
    readAction_cons_iff.mpr ⟨_, _, .type (by decide) filled, by rfl⟩
  exact actionNode_iff.mpr ⟨"x", _, by rfl, children,
    finishAction_iff.mpr ⟨"y", "y", _, text, none, none, rfl, written, rfl, rfl, rfl⟩⟩

theorem build_sampleWorkflow {first : String} (visible : Text.isBlankText first = false) (layer : Dict String) {text : String}
    (written : Markup.serialize (sampleElement layer) = .ok text) :
    build (builder {} (some layer)) (sampleWorkflow first) .empty = .succeed .empty (sampleGraph first text) := by
  have target : requireAttribute { name := Tag.start, attributes := [(Key.target, first)] } Key.target = .ok first := by
    simp [requireAttribute, Element.attribute?, visible]
  have started : buildElement (builder {} (some layer)) ⟨.empty "w", .empty, none, false⟩
      { name := Tag.start, attributes := [(Key.target, first)] } =
      .succeed ⟨⟨"w", [⟨startName, .start [first]⟩], List.nodup_singleton _, false⟩, .empty, none, false⟩ () := by
    rw [buildElement, if_pos rfl, startNode, target]
    rfl
  have elements : buildElements (builder {} (some layer)) ⟨.empty "w", .empty, none, false⟩ (sampleWorkflow first).children =
      .succeed ⟨sampleGraph first text, .empty, none, false⟩ () := by
    rw [sampleWorkflow, buildElements, started, Attempt.andThen_succeed, buildElements, buildElement_eq,
      plainNode?_action rfl]
    simp only [actionNode_sampleAction layer written, Attempt.andThen_succeed]
    rfl
  have named : requireAttribute (sampleWorkflow first) Key.name = .ok "w" := by rfl
  have inherited : inheritedGlobals .empty = .ok none := by rfl
  rw [build]
  simp only [named, inherited, elements]
  rfl

theorem stages_sampleWorkflow {definition first : String} (parsed : Markup.parse definition = .ok (sampleWorkflow first))
    (visible : Text.isBlankText first = false) (layer : Dict String) {text : String}
    (written : Markup.serialize (sampleElement layer) = .ok text) {report : StructureReport}
    (checked : (sampleGraph first text).checkStructure (registry {}) = .ok report)
    (forkJoin : (sampleGraph first text).checkForkJoin report = .ok ()) :
    Stages {} definition .empty (some layer) ⟨(sampleGraph first text).sealNodes, report⟩ (sampleWorkflow first) .empty .empty
      (sampleGraph first text) where
  schema contrary := by cases contrary
  parsed := parsed
  verified := by rfl
  built := build_sampleWorkflow visible layer written
  checked := checked
  forkJoin _ := forkJoin
  compiled := rfl

/-- The definition of a workflow that ends at once and never comes to its action. -/
def passesAction : String :=
  "<workflow-app name=\"w\">\n  <start to=\"y\"/>\n  <action name=\"x\">\n    <fs/>\n    <ok to=\"y\"/>\n    <error to=\"y\"/>\n  </action>\n  <end name=\"y\"/>\n</workflow-app>"

theorem parse_passesAction : Markup.parse passesAction = .ok (sampleWorkflow "y") := by
  have written : Markup.serialize (sampleWorkflow "y") = .ok passesAction := Except.eq_ok_of_toOption (by decide +kernel)
  exact Markup.parse_of_serialize (by decide +kernel) (by decide +kernel) (by decide) (by decide) written

def manyQuotes : Dict String := Dict.empty.put "k" (String.ofList (List.replicate 1001 '\''))

theorem checkStructure_passed (text : String) : (sampleGraph "y" text).checkStructure (registry {}) = .ok ⟨[], [], 2⟩ := by
  have passes : ∀ n ∈ [⟨startName, .start ["y"]⟩, ⟨"y", .finish []⟩], Structure.checkNode (registry {}) n = .ok () :=
    Structure.checkNode_of_isOk (by decide +kernel)
  simp only [startName, List.forall_mem_cons] at passes
  simp [Graph.checkStructure, Graph.start, Graph.start?, sampleGraph, Node.kind, passes, Structure.walk_nil,
    Structure.walk_leave, Structure.walk_follow, Structure.Walk.enter, Structure.isTerminal, Graph.find?,
    Structure.StructureReport.addNode, Node.transitions, startName]

theorem serialize_sampleElement (layer : Dict String) : ∃ text, Markup.serialize (sampleElement layer) = .ok text ∧
    ∀ tree, Markup.parse text = .ok tree ↔
      (sampleElement layer).references ≤ Markup.expansionLimit ∧ tree = (sampleElement layer).reread := by
  refine Markup.parse_serialize (.intro ?_ (List.forall_mem_singleton.mpr (printable_configurationElement layer))) ?_
  · exact ⟨(by decide : SimpleName Tag.fileSystem), List.forall_mem_nil _, List.forall_mem_nil _,
      List.nodup_nil, fun _ => (by decide : '\r' ∉ "".toList)⟩
  · exact depth_le (List.forall_mem_singleton.mpr ((depth_configurationElement layer).trans (by decide)))

theorem cleanConfiguration_manyQuotes : CleanConfiguration manyQuotes :=
  CleanConfiguration.empty.put (by decide) (by decide) (Markup.clean_quotes 1001)

theorem references_sampleElement (value : String) :
    (sampleElement (Dict.empty.put "k" value)).references = Markup.references value.toList := by
  have none : Markup.references [] = 0 := by rfl
  have key : Markup.references ['k'] = 0 := by rfl
  simp [sampleElement, configurationElement, propertyElement, Element.ofText, Dict.put, putEntry, Dict.empty, Element.references,
    Element.referencesOf, Markup.attributeReferences, none, key]

theorem references_replicate (count : Nat) : Markup.references (List.replicate count '\'') = count := by
  have counted := Markup.references_quotes count
  rwa [Markup.quotes, String.toList_ofList] at counted

/-- An action that is not reached can have a text that is not read. -/
theorem conf_unread : ∃ compiled n ok error spec,
    (compile {} passesAction .empty (some manyQuotes)).result = .ok compiled ∧
      (∃ root, Markup.parse passesAction = .ok root ∧ root.Every SimpleNames) ∧ CleanConfiguration manyQuotes ∧
      n ∈ compiled.graph.nodes ∧ n.body = .action ok error spec ∧ ∀ tree, Markup.parse spec.conf ≠ .ok tree := by
  obtain ⟨text, written, reads⟩ := serialize_sampleElement manyQuotes
  have checked := checkStructure_passed text
  have stages := stages_sampleWorkflow parse_passesAction (by decide) manyQuotes written checked (by simp [Graph.checkForkJoin])
  refine ⟨_, ⟨"x", .action "y" "y" { conf := text }⟩, "y", "y", { conf := text }, stages.compile, ⟨_, parse_passesAction, by decide +kernel⟩,
    cleanConfiguration_manyQuotes, by simp [sampleGraph, Graph.sealNodes], rfl, fun tree parsed => ?_⟩
  obtain ⟨few, _⟩ := (reads tree).mp parsed
  rw [manyQuotes, references_sampleElement, String.toList_ofList, references_replicate] at few
  exact absurd few (by decide)

/-! ### A configuration with four layers -/

def siteLayer : Dict String := Dict.empty.put "k" "site"

def callLayer : Dict String := (Dict.empty.put "b" "call").put "k" "call"

def sectionLayer : Dict String := Dict.empty.put "k" "section"

def ownLayer : Dict String := Dict.empty.put "k" "<v>"

/-- The layers together: `k` has the value of the highest one, and `b` keeps that of the call. -/
def mergedLayers : Dict String := (Dict.empty.put "k" "<v>").put "b" "call"

/-- A compiler for a site that configures actions. -/
def layered : Compiler := { site := { configuration := siteLayer } }

/-- An element that sets `k` twice and gives `b` no value. -/
def layeredType : Element where
  name := Tag.fileSystem
  children := [{ name := Tag.configuration, children := [propertyElement "k" "own",
    { name := Tag.property, children := [.ofText Tag.propertyName "b"] }, propertyElement "k" "<v>"] }]

def layeredAction : Element := { sampleAction with children := layeredType :: sampleAction.children.tail }

/-- A workflow whose global section configures its action too. -/
def layeredWorkflow : Element :=
  { name := Tag.root
    attributes := [(Key.name, "w")]
    children := [{ name := Tag.start, attributes := [(Key.target, "x")] },
      { name := Tag.globals, children := [configurationElement sectionLayer] }, layeredAction,
      { name := Tag.finish, attributes := [(Key.name, "y")] }] }

/-- The text of the action node of that workflow. -/
def layeredText : String :=
  "<fs>\n  <configuration>\n" ++
  "    <property>\n      <name>k</name>\n      <value>&lt;v&gt;</value>\n    </property>\n" ++
  "    <property>\n      <name>b</name>\n      <value>call</value>\n    </property>\n" ++
  "  </configuration>\n</fs>"

theorem parse_layeredText : Markup.parse layeredText = .ok (sampleElement mergedLayers) := by
  have written : Markup.serialize (sampleElement mergedLayers) = .ok layeredText := Except.eq_ok_of_toOption (by decide +kernel)
  exact Markup.parse_of_serialize (by decide +kernel) (by decide +kernel) (by decide) (by decide) written

theorem build_layeredWorkflow : ∃ g, build (layered.builder (some callLayer)) layeredWorkflow .empty = .succeed .empty g ∧
    g.nodes = (sampleGraph "x" layeredText).nodes := by
  have result : (build (layered.builder (some callLayer)) layeredWorkflow .empty).result.toOption.map Graph.nodes =
      some (sampleGraph "x" layeredText).nodes := by decide +kernel
  have state : (build (layered.builder (some callLayer)) layeredWorkflow .empty).state = .empty := by decide +kernel
  obtain ⟨g, result, nodes⟩ := Option.map_eq_some_iff.mp result
  have shape : build (layered.builder (some callLayer)) layeredWorkflow .empty =
      .succeed (build (layered.builder (some callLayer)) layeredWorkflow .empty).state g := by
    rw [Attempt.succeed, ← Except.eq_ok_of_toOption result]
  rw [state] at shape
  exact ⟨g, shape, nodes⟩

theorem checkStructure_layered {g : Graph} (nodes : g.nodes = (sampleGraph "x" layeredText).nodes) :
    g.checkStructure layered.registry = .ok ⟨[], [], 3⟩ := by
  have plain : ∀ n ∈ [⟨startName, .start ["x"]⟩, ⟨"y", .finish []⟩], Structure.checkNode layered.registry n = .ok () :=
    Structure.checkNode_of_isOk (by decide +kernel)
  have action : Structure.checkNode layered.registry ⟨"x", .action "y" "y" { conf := layeredText }⟩ = .ok () := by
    rw [Structure.checkNode_ok_iff]
    have legal : checkNodeName "x" = .ok () := Except.eq_ok_of_toOption (by decide +kernel)
    refine ⟨fun _ => (checkNodeName_ok_iff _).mp legal, fun _ _ _ same => ?_⟩
    cases same
    exact ⟨_, parse_layeredText, by decide⟩
  refine checkStructure_oneAction nodes ?_
  rw [nodes]
  simp only [sampleGraph, List.forall_mem_cons] at plain ⊢
  exact ⟨plain.1, action, plain.2⟩

/-- A build comes to the action of that workflow with the defaults of its section. -/
theorem comesTo_layeredAction {s : BuildState} {e : Element} (tag : e.name = Tag.action)
    (comes : ComesTo (layered.builder (some callLayer)) layeredWorkflow .empty s e) :
    e = layeredAction ∧ s.globals = some { configuration := some sectionLayer } := by
  obtain ⟨name, globals, before, after, _, handed, split, builds⟩ := comes
  cases handed
  rcases before with _ | ⟨_, _ | ⟨_, _ | ⟨_, _ | ⟨_, before⟩⟩⟩⟩
  · cases split
    exact absurd tag (by decide)
  · cases split
    exact absurd tag (by decide)
  · cases split
    cases builds
    exact ⟨rfl, rfl⟩
  · cases split
    exact absurd tag (by decide)
  · have short := congrArg List.length split
    simp [layeredWorkflow] at short

theorem Compiler.conf_readsAs_sample : ∃ definition compiled n ok error spec s e type tree first,
    Markup.parse definition = .ok layeredWorkflow ∧ (layered.compile definition .empty (some callLayer)).result = .ok compiled ∧
      n ∈ compiled.graph.nodes ∧ n.body = .action ok error spec ∧
      ComesTo (layered.builder (some callLayer)) layeredWorkflow .empty s e ∧ runs? e.children = some type ∧
      ownConfiguration type = .ok ownLayer ∧
      layered.layers (some callLayer) s.globals ownLayer = [siteLayer, callLayer, sectionLayer, ownLayer] ∧
      Markup.parse spec.conf = .ok tree ∧ ReadsAs layered (some callLayer) s.globals type tree ∧
      tree.child? Tag.configuration = some first ∧ readConfiguration first = .ok mergedLayers := by
  obtain ⟨definition, _, parsed⟩ := Markup.exists_text (e := layeredWorkflow) (by decide +kernel) (by decide +kernel)
    (by decide) (by decide)
  obtain ⟨g, built, nodes⟩ := build_layeredWorkflow
  have stages : Stages layered definition .empty (some callLayer) ⟨g.sealNodes, ⟨[], [], 3⟩⟩ layeredWorkflow .empty .empty g :=
    ⟨nofun, parsed, by rfl, built, checkStructure_layered nodes, fun _ => by simp [Graph.checkForkJoin], rfl⟩
  have action : (⟨"x", .action "y" "y" { conf := layeredText }⟩ : Node) ∈ g.sealNodes.nodes := by
    simp [Graph.sealNodes, nodes, sampleGraph]
  have reachable : g.sealNodes.Reachable ⟨"x", .action "y" "y" { conf := layeredText }⟩ := by
    refine ⟨⟨startName, .start ["x"]⟩, ?_, .single ⟨rfl, "x", List.mem_singleton_self _, ?_⟩⟩
    · rw [Graph.start?, Graph.sealNodes, nodes]
      rfl
    · rw [Graph.find?, Graph.sealNodes, nodes]
      rfl
  obtain ⟨s, e, type, _, comes, tag, _, runs, _, reading⟩ := conf_readsAs stages.compile parsed (by decide +kernel)
    (by decide) (by decide +kernel)
    (fun globals handed => by
      cases handed
      intro d present
      cases present)
    action rfl
  obtain ⟨rfl, globals⟩ := comesTo_layeredAction tag comes
  obtain ⟨tree, read, readsAs⟩ := reading (.inl reachable)
  cases runs
  rw [parse_layeredText] at read
  cases read
  refine ⟨definition, _, _, _, _, _, s, _, _, _, _, parsed, stages.compile, action, rfl, comes, rfl, by rfl, ?_, parse_layeredText,
    readsAs, rfl, ?_⟩
  · rw [globals]
    rfl
  · exact readConfiguration_configurationElement (by decide)

end WorkflowCompiler
