import WorkflowCompiler.Proofs.Chain
import WorkflowCompiler.Proofs.Definition.Parameters

/-!
What a compilation leaves in the job configuration, whether it succeeds or fails. The parameters add default values
after the entries that are there, and after that a build changes one entry at most: when it comes to the first action
that asks to hand the defaults on and there are some, it writes these (`FirstHanded`, `build_leaves`). No other stage
touches the job configuration (`Compiler.compile_conf`, `Compiler.compile_keeps`).
-/
namespace WorkflowCompiler
open Markup (Element)

namespace Definition
variable {b : Builder} {s t : BuildState} {e : Element} {i : Inheritance} {inherited : Option GlobalDefaults}
  {past elements : List Element} {conf after : Dict String} {g : GlobalDefaults}

/-- The defaults in effect at the first action that asked to hand them on when there were some. -/
def FirstHanded (i : Inheritance) (inherited : Option GlobalDefaults) (elements : List Element) (g : GlobalDefaults) : Prop :=
  ∃ before action later, elements = before ++ action :: later ∧ handsOn action = true ∧
    effective i inherited before = .ok (some g) ∧
    ∀ first earlier rest, before = first ++ earlier :: rest → handsOn earlier = true → effective i inherited first = .ok none

/-- What a build leaves of a job configuration: what it was, or that with the first defaults that were handed on. -/
def Leaves (i : Inheritance) (inherited : Option GlobalDefaults) (elements : List Element) (conf after : Dict String) : Prop :=
  after = conf ∨ ∃ g, FirstHanded i inherited elements g ∧ after = conf.put globalsKey g.encode

/-- The state that a build comes to, from a job configuration that hands some defaults down. -/
structure Sends (b : Builder) (conf : Dict String) (inherited : Option GlobalDefaults) (past : List Element) (s : BuildState) :
    Prop where
  unsent : s.propagated = false → Traces b conf inherited past s
  sent : s.propagated = true → ∃ g, FirstHanded b.inheritance inherited past g ∧ s.conf = conf.put globalsKey g.encode

theorem FirstHanded.append (handed : FirstHanded i inherited past g) (more : List Element) :
    FirstHanded i inherited (past ++ more) g := by
  obtain ⟨before, action, later, rfl, found⟩ := handed
  exact ⟨before, action, later ++ more, by rw [List.append_assoc, List.cons_append], found⟩

theorem Leaves.append (leaves : Leaves i inherited past conf after) (more : List Element) :
    Leaves i inherited (past ++ more) conf after :=
  leaves.imp_right fun ⟨g, handed, same⟩ => ⟨g, handed.append more, same⟩

/-! ### Steps that fail -/

theorem state_of_andThen {σ α β : Type} (a : Attempt σ α) (next : σ → α → Attempt σ β) :
    (a.andThen next).state = a.state ∨ ∃ value, a = .succeed a.state value ∧ (a.andThen next).state = (next a.state value).state := by
  obtain ⟨state, result⟩ := a
  cases result with
  | error fault => exact .inl rfl
  | ok value => exact .inr ⟨value, rfl, rfl⟩

theorem state_of_readChild_any (b : Builder) (node : String) (s : BuildState) (draft : ActionDraft) (c : Element) :
    (readChild b node s draft c).state = s ∨ propagates c = true ∧ (readChild b node s draft c).state = s.handOver := by
  unfold readChild
  split
  · exact .inl rfl
  split
  · exact .inl rfl
  split
  · exact .inl rfl
  · by_cases asks : propagates c = true
    · exact .inr ⟨asks, (propagate_eq s c).trans (if_pos asks)⟩
    · exact .inl ((propagate_eq s c).trans (if_neg asks))

/-- Reading an action hands the defaults on, or does nothing to the state. -/
theorem state_of_readAction_any (b : Builder) (node : String) (s : BuildState) (draft : ActionDraft) (children : List Element) :
    (readAction b node s draft children).state = s ∨
      children.any propagates = true ∧ (readAction b node s draft children).state = s.handOver := by
  induction children generalizing s draft with
  | nil => exact .inl rfl
  | cons c rest ih =>
    rw [readAction_cons, List.any_cons, Bool.or_eq_true]
    have first := state_of_readChild_any b node s draft c
    rcases state_of_andThen (readChild b node s draft c) fun s draft => readAction b node s draft rest with
      stopped | ⟨next, _, onward⟩
    · rw [stopped]
      exact first.imp_right fun ⟨asks, state⟩ => ⟨.inl asks, state⟩
    · rw [onward]
      rcases first with state | ⟨asks, state⟩ <;> rw [state]
      · exact (ih s next).imp_right fun ⟨asks, state⟩ => ⟨.inr asks, state⟩
      · rcases ih s.handOver next with same | ⟨_, same⟩
        · exact .inr ⟨.inl asks, same⟩
        · exact .inr ⟨.inl asks, same.trans s.handOver_handOver⟩

theorem state_of_actionNode_any (b : Builder) (s : BuildState) (e : Element) :
    (actionNode b s e).state = s ∨ e.children.any propagates = true ∧ (actionNode b s e).state = s.handOver := by
  unfold actionNode
  split
  · exact .inl rfl
  · rename_i node _
    have children := state_of_readAction_any b node s {} e.children
    rcases state_of_andThen (readAction b node s {} e.children) fun s draft =>
        Attempt.ofExcept s (finishAction e node draft s.conf) with stopped | ⟨_, _, finished⟩
    · rw [stopped]
      exact children
    · rw [finished]
      exact children

theorem state_of_addNode_error {node : Except Fault Node} {fault : Fault} (failed : (addNode s node).result = .error fault) :
    (addNode s node).state = s := by
  cases node with
  | error _ => rfl
  | ok n =>
    cases added : s.graph.add n with
    | error _ => simp [addNode, added, Attempt.fail]
    | ok _ => simp [addNode, added, Attempt.succeed] at failed

theorem state_of_stepOf_error {next : Except Fault BuildState} {fault : Fault} (failed : (stepOf s next).result = .error fault) :
    (stepOf s next).state = s := by
  cases next with
  | error _ => rfl
  | ok _ => cases failed

/-- Reading an element that fails leaves the state as it was, or as it is when the defaults were handed on. -/
theorem state_of_buildElement_error {fault : Fault} (failed : (buildElement b s e).result = .error fault) :
    (buildElement b s e).state = s ∨ handsOn e = true ∧ (buildElement b s e).state = s.handOver := by
  rw [buildElement_eq] at failed ⊢
  cases plain : plainNode? e with
  | some node =>
    rw [plain] at failed
    exact .inl (state_of_addNode_error failed)
  | none =>
    rw [plain] at failed
    dsimp only at failed ⊢
    split at failed
    case isTrue tag =>
      rw [if_pos tag]
      have state : ((actionNode b s e).andThen fun s n => addNode s (.ok n)).state = (actionNode b s e).state := by
        rcases state_of_andThen (actionNode b s e) fun s n => addNode s (.ok n) with same | ⟨n, read, same⟩
        · exact same
        · rw [read, Attempt.andThen_succeed] at failed
          exact same.trans (state_of_addNode_error failed)
      rw [state, handsOn_eq_any tag]
      exact state_of_actionNode_any b s e
    case isFalse other =>
      left
      rw [if_neg other]
      split at failed
      case isTrue tag =>
        rw [if_pos tag]
        exact state_of_stepOf_error failed
      case isFalse other =>
        rw [if_neg other]
        split <;> rfl

/-! ### Builds -/

namespace Sends

theorem leaves (sends : Sends b conf inherited past s) : Leaves b.inheritance inherited past conf s.conf := by
  cases propagated : s.propagated with
  | false => exact .inl ((sends.unsent propagated).kept propagated).1
  | true => exact .inr (sends.sent propagated)

/-- An action that asks hands the defaults on, unless that was done or there are none. -/
theorem handOver (sends : Sends b conf inherited past s) (asks : handsOn e = true) :
    Sends b conf inherited (past ++ [e]) s.handOver := by
  have tag : e.name ≠ Tag.globals := by rw [tag_of_handsOn asks]; decide
  rcases s.handOver_cases with ⟨idle, kept⟩ | ⟨g, present, unsent, handing⟩
  · rw [kept]
    refine ⟨fun unsent => (sends.unsent unsent).idle_step tag (fun _ => idle) s.graph, fun sent => ?_⟩
    obtain ⟨g, handed, same⟩ := sends.sent sent
    exact ⟨g, handed.append [e], same⟩
  · rw [handing]
    have traces := sends.unsent unsent
    obtain ⟨same, nothing⟩ := traces.kept unsent
    refine ⟨nofun, fun _ => ⟨g, ⟨past, e, [], rfl, asks, by rw [traces.globals, present], nothing⟩, by rw [same]⟩⟩

theorem step (sends : Sends b conf inherited past s) (start : inheritedGlobals conf = .ok inherited) (reads : Reads b s e t) :
    Sends b conf inherited (past ++ [e]) t := by
  rcases reads.effects with ⟨tag, handedDown, g, current, set, rfl⟩ | ⟨tag, same⟩
  · refine ⟨fun unsent => ?_, fun sent => ?_⟩
    · have traces := sends.unsent unsent
      rw [(traces.kept unsent).1, start] at current
      cases current
      exact traces.section_step tag set
    · obtain ⟨g, handed, same⟩ := sends.sent sent
      exact ⟨g, handed.append [e], same⟩
  · have graphs (s : BuildState) (graph : Graph) (sends : Sends b conf inherited (past ++ [e]) s) :
        Sends b conf inherited (past ++ [e]) { s with graph := graph } :=
      ⟨fun unsent => ⟨(sends.unsent unsent).globals, (sends.unsent unsent).kept, (sends.unsent unsent).handed⟩, sends.sent⟩
    rw [same]
    refine graphs _ _ ?_
    cases asks : handsOn e with
    | true =>
      rw [if_pos rfl]
      exact sends.handOver asks
    | false =>
      refine ⟨fun unsent => (sends.unsent unsent).idle_step tag (by rw [asks]; nofun) s.graph, fun sent => ?_⟩
      obtain ⟨g, handed, same⟩ := sends.sent sent
      exact ⟨g, handed.append [e], same⟩

theorem start (b : Builder) (conf : Dict String) (inherited : Option GlobalDefaults) (name : String) :
    Sends b conf inherited [] ⟨.empty name, conf, inherited, false⟩ :=
  ⟨fun _ => .start b conf inherited name, nofun⟩

/-- Reading elements, as far as it gets, leaves the job configuration alone but for what it hands on. -/
theorem buildElements (sends : Sends b conf inherited past s) (start : inheritedGlobals conf = .ok inherited)
    (elements : List Element) :
    Leaves b.inheritance inherited (past ++ elements) conf (buildElements b s elements).state.conf := by
  -- the invariant goes from element to element; the element that fails changes the state no more than one that passes
  induction elements generalizing past s with
  | nil =>
    rw [List.append_nil]
    exact sends.leaves
  | cons e rest ih =>
    rw [Definition.buildElements]
    cases read : buildElement b s e with
    | mk mid result =>
      cases result with
      | ok _ =>
        rw [List.append_cons]
        exact ih (sends.step start (reads_of_buildElement read))
      | error fault =>
        have failed : (buildElement b s e).result = .error fault := by rw [read]
        have state := state_of_buildElement_error failed
        rw [read] at state
        rcases state with same | ⟨asks, same⟩
        · obtain rfl : mid = s := same
          exact sends.leaves.append (e :: rest)
        · obtain rfl : mid = s.handOver := same
          rw [List.append_cons]
          exact (sends.handOver asks).leaves.append rest

end Sends

theorem build_leaves (b : Builder) (root : Element) (conf : Dict String) : (build b root conf).state = conf ∨
    ∃ inherited, inheritedGlobals conf = .ok inherited ∧
      Leaves b.inheritance inherited root.children conf (build b root conf).state := by
  unfold build
  cases requireAttribute root Key.name with
  | error fault => exact .inl rfl
  | ok name =>
    cases start : inheritedGlobals conf with
    | error fault => exact .inl rfl
    | ok inherited =>
      have leaves := (Sends.start b conf inherited name).buildElements start root.children
      refine .inr ⟨inherited, rfl, ?_⟩
      dsimp only
      split
      · exact leaves
      · split
        · exact leaves
        · exact leaves

end Definition

open Definition

namespace Compiler
variable {c : Compiler} {definition : String} {conf after : Dict String} {layer : Option (Dict String)}

/-- What the job configuration is after a compilation. Each entry keeps its place, and its value too unless it hands
    defaults on; a new entry comes from the declared parameters or hands defaults on; and an entry that hands defaults
    on has its new value from the parameters, or it is what the first action handed on that found some in effect. -/
structure Keeps (c : Compiler) (definition : String) (conf after : Dict String) : Prop where
  keys : conf.keys <+: after.keys
  values : ∀ key ∈ conf.keys, key ≠ globalsKey → after.get? key = conf.get? key
  added : ∀ key value, key ∉ conf.keys → after.get? key = some value → key = globalsKey ∨
    ∃ root, Markup.parse definition = .ok root ∧ defaultValue? (declarations root) key = some value
  handed : after.get? globalsKey ≠ conf.get? globalsKey → ∃ root, Markup.parse definition = .ok root ∧
    (after.get? globalsKey = (verifyParameters root conf).state.get? globalsKey ∨
      ∃ inherited g blob, inheritedGlobals (verifyParameters root conf).state = .ok inherited ∧
        FirstHanded c.inheritance inherited root.children g ∧ after.get? globalsKey = some blob ∧
        GlobalDefaults.decode blob = .ok g)

theorem checkForm_conf (c : Compiler) (definition : String) (s : Session) : (c.checkForm definition s).state.conf = s.conf := by
  unfold checkForm
  split
  · cases validateSchema definition <;> rfl
  · rfl

theorem checkGraph_conf (c : Compiler) (g : Graph) (s : Session) : (c.checkGraph g s).state.conf = s.conf := by
  unfold checkGraph
  cases g.checkStructure c.registry with
  | error fault => rfl
  | ok report =>
    dsimp only [Attempt.ofExcept, Attempt.andThen]
    split
    · cases g.checkForkJoin report <;> rfl
    · rfl

theorem readDefinition_conf (definition : String) (s : Session) : (readDefinition definition s).state.conf = s.conf := by
  unfold readDefinition
  split <;> rfl

/-- The job configurations that a compilation may leave: the one that it was given, or what the parameters or the build make of it. -/
inductive MayLeave (c : Compiler) (definition : String) (conf : Dict String) (layer : Option (Dict String)) : Dict String → Prop
  | unchanged : MayLeave c definition conf layer conf
  | verified {root : Element} (parsed : Markup.parse definition = .ok root) :
      MayLeave c definition conf layer (verifyParameters root conf).state
  | built {root : Element} (parsed : Markup.parse definition = .ok root) :
      MayLeave c definition conf layer (build (c.builder layer) root (verifyParameters root conf).state).state

theorem conf_of_andThen {α β : Type} {P : Dict String → Prop} {a : Attempt Session α} {next : Session → α → Attempt Session β}
    (stopped : P a.state.conf) (onward : ∀ s x, a = .succeed s x → P (next s x).state.conf) : P (a.andThen next).state.conf := by
  rcases state_of_andThen a next with same | ⟨x, passed, same⟩
  · rwa [same]
  · rw [same]
    exact onward _ x passed

/-- The job configuration changes with the parameters and in the build, and in no other stage. -/
theorem compile_conf (c : Compiler) (definition : String) (conf : Dict String) (layer : Option (Dict String)) :
    MayLeave c definition conf layer (c.compile definition conf layer).state.conf := by
  have form := c.checkForm_conf definition ⟨conf, []⟩
  refine conf_of_andThen (form ▸ .unchanged) fun s₁ _ formed => ?_
  obtain rfl : s₁.conf = conf := by rw [formed] at form; exact form
  refine conf_of_andThen (readDefinition_conf definition s₁ ▸ .unchanged) fun s₂ root read => ?_
  obtain ⟨rfl, parsed⟩ := readDefinition_eq_succeed read
  refine conf_of_andThen (.verified parsed) fun s₃ _ settled => ?_
  have verified : s₃.conf = (verifyParameters root s₂.conf).state := by rw [onConf_eq_succeed settled]; rfl
  refine conf_of_andThen (verified ▸ .built parsed) fun s₄ g done => ?_
  have built : s₄.conf = (build (c.builder layer) root s₃.conf).state := by rw [onConf_eq_succeed done]; rfl
  rw [verified] at built
  have last : MayLeave c definition s₂.conf layer s₄.conf := built ▸ .built parsed
  have kept := c.checkGraph_conf g (tell s₄ (.built g.name g.size))
  refine conf_of_andThen (kept ▸ last) fun s₅ report checked => ?_
  have same : s₅.conf = s₄.conf := by rw [checked] at kept; exact kept
  exact same ▸ last

theorem Keeps.refl (c : Compiler) (definition : String) (conf : Dict String) : Keeps c definition conf conf where
  keys := List.prefix_refl _
  values _ _ _ := rfl
  added key value absent present := by
    rw [Dict.get?_eq_none_iff.mpr absent] at present
    cases present
  handed changed := absurd rfl changed

theorem Keeps.filled (c : Compiler) {root : Element} (parsed : Markup.parse definition = .ok root) (conf : Dict String) :
    Keeps c definition conf (verifyParameters root conf).state where
  keys := Dict.keys_prefix (filled_of_verifyParameters root conf).kept
  values key member _ := by
    obtain ⟨value, present⟩ := Option.isSome_iff_exists.mp (Dict.mem_keys_iff.mp member)
    rw [present]
    exact Dict.get?_of_prefix (filled_of_verifyParameters root conf).kept present
  added key value absent present :=
    .inr ⟨root, parsed, (filled_of_verifyParameters root conf).added key value present (Dict.get?_eq_none_iff.mpr absent)⟩
  handed _ := ⟨root, parsed, .inl rfl⟩

theorem Keeps.put {root : Element} {inherited : Option GlobalDefaults} {g : GlobalDefaults}
    (parsed : Markup.parse definition = .ok root) (filled : Keeps c definition conf (verifyParameters root conf).state)
    (start : inheritedGlobals (verifyParameters root conf).state = .ok inherited)
    (handed : FirstHanded c.inheritance inherited root.children g) :
    Keeps c definition conf ((verifyParameters root conf).state.put globalsKey g.encode) where
  keys := filled.keys.trans (Dict.keys_put_prefix _ _ _)
  values key member other := by rw [Dict.get?_put, if_neg other, filled.values key member other]
  added key value absent present := by
    by_cases same : key = globalsKey
    · exact .inl same
    · rw [Dict.get?_put, if_neg same] at present
      exact filled.added key value absent present
  handed _ := by
    refine ⟨root, parsed, .inr ⟨inherited, g, g.encode, start, handed, by rw [Dict.get?_put, if_pos rfl], ?_⟩⟩
    exact GlobalDefaults.decode_eq_ok.mpr (GlobalDefaults.decode?_encode g)

/-- A compilation leaves the job configuration alone but for the default values of parameters and the entry that hands
    defaults on, whether it succeeds or fails at any stage. -/
theorem compile_keeps (c : Compiler) (definition : String) (conf : Dict String) (layer : Option (Dict String)) :
    Keeps c definition conf (c.compile definition conf layer).state.conf := by
  have leaves := c.compile_conf definition conf layer
  generalize (c.compile definition conf layer).state.conf = after at leaves ⊢
  cases leaves with
  | unchanged => exact .refl c definition conf
  | verified parsed => exact .filled c parsed conf
  | @built root parsed =>
    have filled := Keeps.filled c parsed conf
    rcases build_leaves (c.builder layer) root (verifyParameters root conf).state with kept | ⟨inherited, start, kept | ⟨g, handed, put⟩⟩
    · rwa [kept]
    · rwa [kept]
    · rw [put]
      exact filled.put parsed start handed

/-! ### A workflow that asks before it sets its defaults -/

/-- A workflow with an action that asks for the defaults, a global section, and another action that asks. -/
def lateSection : Element where
  name := Tag.root
  attributes := [(Key.name, "w")]
  children := [{ name := Tag.start, attributes := [(Key.target, "s")] }, actionOf "s" asking, relaySection,
    actionOf "x" asking, { name := Tag.finish, attributes := [(Key.name, "y")] }]

def bareAskingText : String := "<sub-workflow>\n  <propagate-configuration/>\n</sub-workflow>"

theorem serialize_bareAsking : Markup.serialize asking = .ok bareAskingText :=
  Except.eq_ok_of_toOption (by decide +kernel)

theorem build_lateSection : ∃ g, build relayBuilder lateSection .empty = .succeed relayConf g ∧
    g.nodes = relayNodes bareAskingText askingText := by
  obtain ⟨g₁, added₁, nodes₁, open₁⟩ := add_fresh (g := .empty "w") (n := ⟨startName, .start ["s"]⟩) rfl (by decide)
  obtain ⟨g₂, added₂, nodes₂, open₂⟩ := add_fresh (n := ⟨"s", .action "y" "y" { conf := bareAskingText }⟩) open₁
    (by rw [nodes₁]; simp [startName, Graph.empty])
  obtain ⟨g₃, added₃, nodes₃, open₃⟩ := add_fresh (n := ⟨"x", .action "y" "y" { conf := askingText }⟩) open₂
    (by rw [nodes₂, nodes₁]; simp [startName, Graph.empty])
  obtain ⟨g₄, added₄, nodes₄, _⟩ := add_fresh (n := ⟨"y", .finish []⟩) open₃
    (by rw [nodes₃, nodes₂, nodes₁]; simp [startName, Graph.empty])
  have nodes : g₄.nodes = relayNodes bareAskingText askingText := by
    rw [nodes₄, nodes₃, nodes₂, nodes₁]
    rfl
  have asksFirst : actionNode relayBuilder ⟨g₁, .empty, none, false⟩ (actionOf "s" asking) =
      .succeed ⟨g₁, .empty, none, false⟩ ⟨"s", .action "y" "y" { conf := bareAskingText }⟩ :=
    actionNode_actionOf (by decide) (by decide) (by rfl) serialize_bareAsking
  have applied : applyGlobals relayBuilder ⟨g₂, .empty, none, false⟩ relaySection =
      .ok ⟨g₂, .empty, some relayDefaults, false⟩ := by
    rw [applyGlobals_eq]
    rfl
  have asksLater : actionNode relayBuilder ⟨g₂, .empty, some relayDefaults, false⟩ (actionOf "x" asking) =
      .succeed ⟨g₂, relayConf, some relayDefaults, true⟩ ⟨"x", .action "y" "y" { conf := askingText }⟩ :=
    actionNode_actionOf (by decide) (by decide) (by rfl) serialize_asking
  have builds : Builds relayBuilder ⟨.empty "w", .empty, none, false⟩ lateSection.children
      ⟨g₄, relayConf, some relayDefaults, true⟩ :=
    .step (.node rfl added₁) (.step (.action rfl asksFirst added₂) (.step (.globals rfl applied)
      (.step (.action rfl asksLater added₃) (.step (.node rfl added₄) .done))))
  have started : g₄.start?.isSome = true := by
    rw [Graph.start?, nodes]
    rfl
  have named : requireAttribute lateSection Key.name = .ok "w" := by rfl
  exact ⟨g₄, build_of_builds named rfl builds started, nodes⟩

/-- What is handed on need not be in effect at the first action that asks: where there is nothing to hand on yet, a
    later action hands on what was set in between. -/
theorem lateSection_handed : ∃ definition compiled before action later, Markup.parse definition = .ok lateSection ∧
    (compile {} definition .empty).result = .ok compiled ∧ lateSection.children = before ++ action :: later ∧
    (∀ e ∈ before, handsOn e = false) ∧ handsOn action = true ∧ effective (inheritance {}) none before = .ok none ∧
    (compile {} definition .empty).state.conf.get? globalsKey = some relayDefaults.encode ∧
    GlobalDefaults.decode relayDefaults.encode = .ok relayDefaults := by
  obtain ⟨definition, _, parsed⟩ := Markup.exists_text (e := lateSection) (by decide +kernel) (by decide +kernel) (by decide)
    (by decide)
  have reads := Markup.parse_of_serialize (by decide +kernel) (by decide +kernel) (by decide) (by decide) serialize_bareAsking
  obtain ⟨compiled, done, handed, _⟩ : ∃ compiled, (compile {} definition .empty).result = .ok compiled ∧
      (compile {} definition .empty).state.conf = relayConf ∧ compiled.graph.nodes = relayNodes bareAskingText askingText :=
    compile_of_relayNodes rfl parsed (by decide) build_lateSection reads (by decide)
  refine ⟨definition, compiled, [{ name := Tag.start, attributes := [(Key.target, "s")] }], actionOf "s" asking, _, parsed, done,
    rfl, by decide, by decide, rfl, ?_, GlobalDefaults.decode_eq_ok.mpr (GlobalDefaults.decode?_encode _)⟩
  rw [handed, relayConf, Dict.get?_put, if_pos rfl]

end Compiler
end WorkflowCompiler
