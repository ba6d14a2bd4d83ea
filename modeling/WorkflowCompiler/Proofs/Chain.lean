import WorkflowCompiler.Proofs.Definition.Isolation
import WorkflowCompiler.Proofs.Definition.Sections

/-!
Definitions that are compiled one after the other with one job configuration, each of which starts the next
(`Chain`). What the job configuration hands down is the sum of the global sections so far (`Chain.sums`), so an
action of the last definition takes from the whole line of sections: an end point from the nearest one that has it,
all their configurations one over the other, and all their job files, the nearest first (`Accumulates`,
`Compiler.accumulates`).
-/
namespace WorkflowCompiler
open Definition
open Markup (Element)

namespace Compiler
variable {c : Compiler} {conf mid : Dict String} {roots : List Element} {root : Element} {definition : String}
  {layer : Option (Dict String)} {compiled : Compiled}

/-- What inheritance depends on with a compiler. -/
def inheritance (c : Compiler) : Inheritance := ⟨c.registry, c.site.endpoints⟩

/-- The job configuration after definitions that were compiled in order with it. Each sets defaults before its
    actions, if it sets some, and asks to hand them on; no parameter sets what is handed on. -/
inductive Chain (c : Compiler) (conf : Dict String) : List Element → Dict String → Prop
  | start : Chain c conf [] conf
  | next {roots : List Element} {root : Element} {mid : Dict String} {definition : String} {layer : Option (Dict String)}
      {compiled : Compiled} (before : Chain c conf roots mid) (parsed : Markup.parse definition = .ok root)
      (done : (c.compile definition mid layer).result = .ok compiled)
      (unset : (verifyParameters root mid).state.get? globalsKey = mid.get? globalsKey)
      (first : SectionFirst root.children) (asks : root.children.any handsOn = true) :
      Chain c conf (roots ++ [root]) (c.compile definition mid layer).state.conf

/-- The global sections of definitions in order. -/
def sectionsOf (roots : List Element) : List Element := roots.filterMap fun root => root.child? Tag.globals

/-- What an action is filled in with from the global sections before it, the nearest last. -/
structure Accumulates (c : Compiler) (layer : Option (Dict String)) (sections : List Element) (type filled : Element) : Prop where
  name : filled.name = type.name
  nameNode : (c.registry.get? type.name).any ActionType.requiresEndpoints = true → filled.childText? Tag.nameNode =
    (type.childText? Tag.nameNode).or ((nearest? Tag.nameNode sections).or c.inheritance.endpoints.nameNode)
  jobTracker : (c.registry.get? type.name).any ActionType.requiresEndpoints = true → type.name ≠ Tag.fileSystem →
    filled.childText? Tag.jobTracker =
      (type.childText? Tag.jobTracker).or ((nearest? Tag.jobTracker sections).or c.inheritance.endpoints.jobTracker)
  /-- What works on files has a job tracker only if it brings one. -/
  ownTracker : (c.registry.get? type.name).any ActionType.requiresEndpoints = true → type.name = Tag.fileSystem →
    filled.childText? Tag.jobTracker = type.childText? Tag.jobTracker
  configuration : (c.registry.get? type.name).any ActionType.supportsConfiguration = true → ∃ own configurations merged,
    ownConfiguration type = .ok own ∧ sections.mapM ownConfiguration = .ok configurations ∧
    filled.child? Tag.configuration = some (configurationElement merged) ∧
    Merges ([c.site.configuration, layer.getD .empty] ++ configurations ++ [own]) merged
  jobXmls : (c.registry.get? type.name).any ActionType.supportsConfiguration = true →
    jobFiles filled = jobFiles type ++ freshFiles (jobFiles type) (sections.reverse.flatMap jobFiles)

theorem sectionsOf_append (roots : List Element) (root : Element) :
    sectionsOf (roots ++ [root]) = sectionsOf roots ++ (root.child? Tag.globals).toList := by
  rw [sectionsOf, List.filterMap_append, sectionsOf]
  cases present : root.child? Tag.globals <;> simp [present]

theorem inheritedGlobals_congr {conf other : Dict String} (same : conf.get? globalsKey = other.get? globalsKey) :
    inheritedGlobals conf = inheritedGlobals other := by
  rw [inheritedGlobals, inheritedGlobals, same]

/-- The job configuration hands down the sum of all sections so far. -/
theorem Chain.sums (chain : Chain c conf roots mid) (unset : conf.get? globalsKey = none) :
    ∃ globals, inheritedGlobals mid = .ok globals ∧ Sums c.inheritance (sectionsOf roots) globals := by
  -- the sum is carried over the blob: each definition reads what the one before it has left behind
  induction chain with
  | start =>
    refine ⟨none, ?_, .none⟩
    rw [inheritedGlobals, unset]
  | @next roots root mid definition layer compiled _ parsed done same first asks ih =>
    obtain ⟨inherited, start, sums⟩ := ih
    obtain ⟨root', settled, after, g, stages⟩ := stages_of_compile done
    rw [stages.parsed] at parsed
    cases parsed
    rw [stages.verified] at same
    obtain ⟨globals, handed, inEffect⟩ := handed_of_build stages.built first asks ((inheritedGlobals_congr same).trans start)
    rw [stages.conf_after, sectionsOf_append]
    exact ⟨globals, handed, sums.effective first inEffect⟩

theorem takesEndpoints_of_requires {type : String} (requires : (c.registry.get? type).any ActionType.requiresEndpoints = true) :
    takesEndpoints type (c.registry.get? type) = true := by
  obtain ⟨descriptor, known, holds⟩ := (Option.any_eq_true _ _).mp requires
  simp [takesEndpoints, known, holds]

theorem takesConfiguration_of_supports {type : String}
    (supports : (c.registry.get? type).any ActionType.supportsConfiguration = true) :
    takesConfiguration type (c.registry.get? type) = true := by
  obtain ⟨descriptor, known, holds⟩ := (Option.any_eq_true _ _).mp supports
  simp [takesConfiguration, known, holds]

theorem accumulates_of_inherit {sections : List Element} {globals : Option GlobalDefaults} {type filled : Element} {node : Option String}
    (sums : Sums c.inheritance sections globals)
    (done : inherit (c.builder layer).inheritance type globals (c.builder layer).layer node = .succeed filled ()) :
    Accumulates c layer sections type filled where
  name := (inherits_of_inherit done).name
  nameNode requires := by
    rw [((supplied_of_inherit done).endpoints (takesEndpoints_of_requires requires)).nameNode]
    exact congrArg _ sums.nameNode
  jobTracker requires other := by
    rw [((supplied_of_inherit done).endpoints (takesEndpoints_of_requires requires)).jobTracker other]
    exact congrArg _ sums.jobTracker
  ownTracker requires onFiles :=
    ((supplied_of_inherit done).endpoints (takesEndpoints_of_requires requires)).ownTracker onFiles
  configuration supports := by
    obtain ⟨own, found, written⟩ := (inherits_of_inherit done).configuration (takesConfiguration_of_supports supports)
    obtain ⟨configurations, read, same⟩ := sums.configuration
    refine ⟨own, configurations, _, found, read, written, ?_⟩
    have stacked : Dict.stack (c.layers layer globals own) =
        .stack ([c.site.configuration, layer.getD .empty] ++ configurations ++ [own]) := by
      rw [Dict.stack_append, Dict.stack_stack, ← same]
      rfl
    rw [stack_layers, stacked]
    exact merges_stack _
  jobXmls supports := by
    rw [(supplied_of_inherit done).jobFiles (takesConfiguration_of_supports supports)]
    exact congrArg _ (freshFiles_congr _ sums.jobXmls)

/-- An action takes its defaults from the global sections of its own definition and of all those that led to it. -/
theorem accumulates (unset : conf.get? globalsKey = none) (chain : Chain c conf roots mid)
    (done : (c.compile definition mid layer).result = .ok compiled) (parsed : Markup.parse definition = .ok root)
    (kept : (verifyParameters root mid).state.get? globalsKey = mid.get? globalsKey) (first : SectionFirst root.children)
    {n : Node} (member : n ∈ compiled.graph.nodes) {ok error : String} {spec : ActionSpec} (action : n.body = .action ok error spec) :
    ∃ e type filled, e ∈ root.children ∧ e.name = Tag.action ∧ requireAttribute e Key.name = .ok n.name ∧
      runs? e.children = some type ∧ Markup.serialize filled = .ok spec.conf ∧
      Accumulates c layer (sectionsOf (roots ++ [root])) type filled := by
  obtain ⟨inherited, start, sums⟩ := chain.sums unset
  obtain ⟨root', settled, after, g, stages⟩ := stages_of_compile done
  rw [stages.parsed] at parsed
  cases parsed
  -- the parameters leave the blob alone, so the build starts from the sum of the sections before
  have kept : settled.get? globalsKey = mid.get? globalsKey := by rw [← kept, stages.verified]; rfl
  have start : inheritedGlobals settled = .ok inherited := (inheritedGlobals_congr kept).trans start
  obtain ⟨name, handed, t, named, same, builds, _, rfl, _⟩ := build_eq_succeed stages.built
  rw [start] at same
  cases same
  rw [stages.compiled] at member
  obtain ⟨before, e, later, s, type, filled, split, upTo, tag, key, runs, done, written⟩ := builds.runs member action
  have element : e ∈ root.children := by rw [split]; simp
  have inEffect := first.effective_of_builds start split tag upTo
  have sums : Sums (c.builder layer).inheritance (sectionsOf roots) inherited := sums
  have sums := sums.effective first inEffect
  rw [← sectionsOf_append] at sums
  exact ⟨e, type, filled, element, tag, key, runs, written, accumulates_of_inherit sums done⟩

/-! ### A workflow that starts another -/

theorem checkStructure_relay {g : Graph} {text text' : String} {tree : Element} (nodes : g.nodes = relayNodes text text')
    (parsed : Markup.parse text = .ok tree) (supported : c.registry.supports tree.name = true) :
    g.checkStructure c.registry = .ok ⟨[], [], 3⟩ := by
  have start : Structure.checkNode c.registry ⟨startName, .start ["s"]⟩ = .ok () := by
    rw [Structure.checkNode_ok_iff]
    exact ⟨fun other => absurd rfl other, nofun⟩
  have action : Structure.checkNode c.registry ⟨"s", .action "y" "y" { conf := text }⟩ = .ok () := by
    rw [Structure.checkNode_ok_iff]
    have legal : checkNodeName "s" = .ok () := Except.eq_ok_of_toOption (by decide +kernel)
    refine ⟨fun _ => (checkNodeName_ok_iff _).mp legal, fun _ _ _ same => ?_⟩
    cases same
    exact ⟨tree, parsed, supported⟩
  have finish : Structure.checkNode c.registry ⟨"y", .finish []⟩ = .ok () := by
    rw [Structure.checkNode_ok_iff]
    have legal : checkNodeName "y" = .ok () := Except.eq_ok_of_toOption (by decide +kernel)
    exact ⟨fun _ => (checkNodeName_ok_iff _).mp legal, nofun⟩
  simp only [startName] at start
  simp [Graph.checkStructure, Graph.start, Graph.start?, nodes, relayNodes, Node.kind, start, action, finish, Structure.walk_nil,
    Structure.walk_leave, Structure.walk_follow, Structure.Walk.enter, Structure.isTerminal, Graph.find?,
    Structure.StructureReport.addNode, Node.transitions, startName]

theorem compile_of_relayNodes {c : Compiler} {definition : String} {root tree : Element} {conf handed : Dict String}
    {layer : Option (Dict String)} {text text' : String} (unchecked : c.checksSchema = false)
    (parsed : Markup.parse definition = .ok root) (undeclared : root.child? Tag.parameters = none)
    (built : ∃ g, build (c.builder layer) root conf = .succeed handed g ∧ g.nodes = relayNodes text text')
    (reads : Markup.parse text = .ok tree) (supported : c.registry.supports tree.name = true) :
    ∃ compiled, (c.compile definition conf layer).result = .ok compiled ∧ (c.compile definition conf layer).state.conf = handed ∧
      compiled.graph.nodes = relayNodes text text' := by
  obtain ⟨g, built, nodes⟩ := built
  have stages : c.Stages definition conf layer ⟨g.sealNodes, ⟨[], [], 3⟩⟩ root conf handed g := by
    refine ⟨fun checks => ?_, parsed, ?_, built, checkStructure_relay nodes reads supported, fun _ => ?_, rfl⟩
    · rw [unchecked] at checks
      cases checks
    · rw [verifyParameters, undeclared]
    · simp [Graph.checkForkJoin]
  exact ⟨_, stages.compile, stages.conf_after, nodes⟩

theorem compile_relay {c : Compiler} {definition : String} {globals type tree : Element} {conf handed : Dict String}
    {layer : Option (Dict String)} {text text' : String} (unchecked : c.checksSchema = false) (tag : globals.name = Tag.globals)
    (parsed : Markup.parse definition = .ok (relay globals type []))
    (built : ∃ g, build (c.builder layer) (relay globals type []) conf = .succeed handed g ∧ g.nodes = relayNodes text text')
    (reads : Markup.parse text = .ok tree) (supported : c.registry.supports tree.name = true) :
    ∃ compiled, (c.compile definition conf layer).result = .ok compiled ∧ (c.compile definition conf layer).state.conf = handed ∧
      compiled.graph.nodes = relayNodes text text' := by
  have undeclared : (relay globals type []).child? Tag.parameters = none := by
    simp [relay, Element.child?, tag, actionOf, Tag.start, Tag.globals, Tag.action, Tag.finish, Tag.parameters]
  exact compile_of_relayNodes unchecked parsed undeclared built reads supported

/-- A global section that sets a name node only. -/
def nearSection : Element := { name := Tag.globals, children := [.ofText Tag.nameNode "m"] }

def shellText : String :=
  "<shell>\n  <name-node>m</name-node>\n  <job-tracker>t</job-tracker>\n  <configuration/>\n</shell>"

theorem serialize_shell : Markup.serialize
    { name := "shell", children := [.ofText Tag.nameNode "m", .ofText Tag.jobTracker "t", { name := Tag.configuration }] } = .ok shellText :=
  Except.eq_ok_of_toOption (by decide +kernel)

/-- A workflow that another one has started. -/
theorem build_relay_shell : ∃ g text', build (Compiler.builder {} none) (relay nearSection { name := "shell" } []) relayConf =
    .succeed relayConf g ∧ g.nodes = relayNodes shellText text' := by
  obtain ⟨text', written⟩ : ∃ text, Markup.serialize
      { name := Tag.fileSystem, children := [.ofText Tag.nameNode "m", { name := Tag.configuration }] } = .ok text :=
    ⟨"<fs>\n  <name-node>m</name-node>\n  <configuration/>\n</fs>", Except.eq_ok_of_toOption (by decide +kernel)⟩
  obtain ⟨g, built⟩ := build_relay (Compiler.builder {} none) nearSection { name := "shell" } [] relayConf relayConf (some relayDefaults)
    { nameNode := some "m", jobTracker := some "t", configuration := some .empty }
    { nameNode := some "m", jobTracker := some "t", configuration := some .empty } rfl (inheritedGlobals_put _ _) (by rfl) (by decide)
    (by rfl) serialize_shell (fun _ => rfl) (fun _ => .done) (by rfl) written
  exact ⟨g, text', built⟩

theorem accumulates_relay : ∃ mid definition compiled, ∃ n ∈ compiled.graph.nodes, ∃ ok error spec type filled,
    Chain {} .empty [relay relaySection asking []] mid ∧
    (compile {} definition mid).result = .ok compiled ∧ Markup.parse definition = .ok (relay nearSection { name := "shell" } []) ∧
    n.body = .action ok error spec ∧ Markup.serialize filled = .ok spec.conf ∧
    Accumulates {} none [relaySection, nearSection] type filled := by
  obtain ⟨first, _, parsed⟩ := Markup.exists_text (e := relay relaySection asking []) (by decide +kernel) (by decide +kernel)
    (by decide) (by decide)
  obtain ⟨second, _, parsed'⟩ := Markup.exists_text (e := relay nearSection { name := "shell" } []) (by decide +kernel)
    (by decide +kernel) (by decide) (by decide)
  have reads := Markup.parse_of_serialize (by decide +kernel) (by decide +kernel) (by decide) (by decide) serialize_asking
  have reads' := Markup.parse_of_serialize (by decide +kernel) (by decide +kernel) (by decide) (by decide) serialize_shell
  obtain ⟨compiled, done, mid, _⟩ := compile_relay rfl rfl parsed build_relay_asking reads (by decide)
  have chain : Chain {} .empty [relay relaySection asking []] relayConf := by
    rw [← mid]
    exact .next .start parsed done rfl (by decide) (by decide)
  obtain ⟨g, text', built⟩ := build_relay_shell
  obtain ⟨compiled', done', _, nodes⟩ := compile_relay rfl rfl parsed' ⟨g, built⟩ reads' (by decide)
  have member : ⟨"s", .action "y" "y" { conf := shellText }⟩ ∈ compiled'.graph.nodes := by
    rw [nodes]
    simp [relayNodes]
  obtain ⟨_, type, filled, _, _, _, _, written, accumulates⟩ := accumulates rfl chain done' parsed' rfl (by decide) member rfl
  exact ⟨relayConf, second, compiled', _, member, _, _, _, type, filled, chain, done', parsed', rfl, written, accumulates⟩

/-- A site that asks for end points where files are worked on. -/
def strictFiles : Compiler := { site := { actions := [⟨Tag.fileSystem, true, true⟩] } }

/-- What works on files is given no job tracker, even where its type requires end points. -/
theorem files_without_tracker : ∃ definition compiled, ∃ n ∈ compiled.graph.nodes, ∃ ok error spec filled,
    Markup.parse definition = .ok (relay relaySection { name := Tag.fileSystem } []) ∧
    (compile strictFiles definition .empty).result = .ok compiled ∧ n.body = .action ok error spec ∧
    Markup.parse spec.conf = .ok filled ∧ filled.name = Tag.fileSystem ∧
    (strictFiles.registry.get? Tag.fileSystem).any ActionType.requiresEndpoints = true ∧
    nearest? Tag.jobTracker (sectionsOf [relay relaySection { name := Tag.fileSystem } []]) = some "t" ∧
    filled.childText? Tag.jobTracker = none := by
  obtain ⟨definition, _, parsed⟩ := Markup.exists_text (e := relay relaySection { name := Tag.fileSystem } []) (by decide +kernel)
    (by decide +kernel) (by decide) (by decide)
  have reads := Markup.parse_of_serialize (by decide +kernel) (by decide +kernel) (by decide) (by decide) serialize_namedFiles
  have built := build_relay (strictFiles.builder none) relaySection { name := Tag.fileSystem } [] .empty .empty none relayDefaults
    relayDefaults rfl rfl (by rfl) (by decide) (by rfl) serialize_namedFiles (fun _ => rfl) (fun _ => .done) (by rfl) serialize_namedFiles
  obtain ⟨compiled, done, _, nodes⟩ := compile_relay rfl rfl parsed built reads (by decide)
  have member : ⟨"s", .action "y" "y" { conf := namedFilesText }⟩ ∈ compiled.graph.nodes := by
    rw [nodes]
    simp [relayNodes]
  exact ⟨definition, compiled, _, member, _, _, _, _, parsed, done, rfl, reads, rfl, by decide, by decide, by decide⟩

end Compiler
end WorkflowCompiler
