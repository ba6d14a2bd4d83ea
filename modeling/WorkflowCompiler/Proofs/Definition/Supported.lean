import WorkflowCompiler.Proofs.Definition.Isolation

/-!
Which types the actions of a built graph have. An element inherits only if the registry supports its type or it has
the name of the global section (`supports_of_inherit`), so every action node runs an element of a supported type or
one of that name (`BuiltFrom`), and a build fails as soon as it comes to an element of another type (`ComesToType`,
`types_supported`). The exception is meant for global sections, but it covers actions as well: an action may run an
element that only has the name of a section (`relay_runs_section`).
-/
namespace WorkflowCompiler.Definition
open Markup (Element)

/-- An action node runs an element, with all that the element inherits. -/
structure BuiltFrom (b : Builder) (root : Element) (n : Node) (type : Element) : Prop where
  declared : ∃ e ∈ root.children, e.name = Tag.action ∧ requireAttribute e Key.name = .ok n.name ∧ runs? e.children = some type
  written : ∃ ok error spec globals filled, n.body = .action ok error spec ∧
    inherit b.inheritance type globals b.layer (some n.name) = .succeed filled () ∧ Markup.serialize filled = .ok spec.conf

/-- A build comes to an element that an action says to run: all that stands before it was read. -/
def ComesToType (b : Builder) (root : Element) (conf : Dict String) (node : String) (type : Element) : Prop :=
  ∃ s action past rest t draft, ComesTo b root conf s action ∧ action.name = Tag.action ∧
    requireAttribute action Key.name = .ok node ∧ action.children = past ++ type :: rest ∧
    readAction b node s {} past = .succeed t draft ∧ type.name ∉ otherActionChildren

variable {b : Builder} {s t : BuildState} {e filled root : Element} {conf : Dict String} {i : Inheritance}
  {globals : Option GlobalDefaults} {layer : Option (Dict String)} {node : Option String}

/-! ### What inherits -/

/-- Only an element of a supported type inherits, or one that has the name of the global section. -/
theorem supports_of_inherit (done : inherit i e globals layer node = .succeed filled ()) (other : e.name ≠ Tag.globals) :
    i.registry.supports e.name = true :=
  (inherit_eq_succeed_iff.mp done).1.resolve_right other

/-- An element of another type is refused as it is. -/
theorem inherit_unsupported (unknown : i.registry.supports e.name = false) (other : e.name ≠ Tag.globals) :
    inherit i e globals layer node = .fail e (.unsupportedType e.name node) := by
  rw [Registry.supports, Option.isSome_eq_false_iff] at unknown
  unfold inherit
  simp [unknown, other]

/-! ### Where a build comes to -/

theorem readAction_append {name : String} {draft after : ActionDraft} {past rest : List Element}
    (read : readAction b name s draft past = .succeed t after) :
    readAction b name s draft (past ++ rest) = readAction b name t after rest := by
  induction past generalizing s draft with
  | nil =>
    cases read
    rfl
  | cons c past ih =>
    obtain ⟨mid, next, first, onward⟩ := readAction_cons_iff.mp read
    rw [List.cons_append, readAction_cons, first.readChild, Attempt.andThen_succeed, ih onward]

theorem buildElements_append {before rest : List Element} (built : buildElements b s before = .succeed t ()) :
    buildElements b s (before ++ rest) = buildElements b t rest := by
  induction before generalizing s with
  | nil =>
    cases built
    rfl
  | cons e before ih =>
    obtain ⟨mid, _, first, onward⟩ := Attempt.andThen_eq_succeed built
    rw [List.cons_append, buildElements, first, Attempt.andThen_succeed, ih onward]

/-- An action fails where it comes to an element of an unsupported type. -/
theorem readAction_unsupported {name : String} {draft : ActionDraft} {type : Element} {rest : List Element}
    (runs : type.name ∉ otherActionChildren) (unknown : b.inheritance.registry.supports type.name = false)
    (other : type.name ≠ Tag.globals) :
    (readAction b name s draft (type :: rest)).result = .error (.unsupportedType type.name (some name)) := by
  simp only [otherActionChildren, List.mem_cons, List.not_mem_nil, or_false, not_or] at runs
  rw [readAction, if_neg runs.1, if_neg runs.2.1, if_neg (by simp [runs])]
  simp only [inherit_unsupported unknown other]
  rfl

theorem ComesToType.refused {name : String} {type : Element} (comes : ComesToType b root conf name type)
    (unknown : b.inheritance.registry.supports type.name = false) (other : type.name ≠ Tag.globals) :
    (build b root conf).result = .error (.unsupportedType type.name (some name)) := by
  obtain ⟨s, action, past, rest, t, draft, ⟨workflow, inherited, before, later, named, start, split, built⟩, tag, key, children,
    read, runs⟩ := comes
  have refused : (readAction b name t draft (type :: rest)).result = .error (.unsupportedType type.name (some name)) :=
    readAction_unsupported runs unknown other
  have actionFails : (actionNode b s action).result = .error (.unsupportedType type.name (some name)) := by
    rw [actionNode, key]
    simp only [children, readAction_append read, Attempt.andThen, refused]
  have elementFails : (buildElement b s action).result = .error (.unsupportedType type.name (some name)) := by
    rw [buildElement_eq, plainNode?_action tag]
    simp only [tag, if_true, Attempt.andThen, actionFails]
  have elementsFail : (buildElements b ⟨.empty workflow, conf, inherited, false⟩ root.children).result =
      .error (.unsupportedType type.name (some name)) := by
    rw [split, buildElements_append built, buildElements]
    simp only [Attempt.andThen, elementFails]
  rw [build]
  simp only [named, start, elementsFail]
  rfl

/-- Every action of a built graph, whether it can be reached or not, runs an element of a supported type, unless the
    element has the name of the global section; and where a build comes to an element of another type, it fails. -/
theorem types_supported (b : Builder) (root : Element) (conf : Dict String) :
    (∀ after g, build b root conf = .succeed after g → ∀ n ∈ g.nodes, n.kind = .action → ∃ type, BuiltFrom b root n type ∧
      (type.name ≠ Tag.globals → b.inheritance.registry.supports type.name = true)) ∧
    ∀ name type, ComesToType b root conf name type → type.name ≠ Tag.globals →
      b.inheritance.registry.supports type.name = false → ∃ fault, (build b root conf).result = .error fault ∧
        fault.code? = some .unsupportedActionType ∧ fault.node? = some name ∧
        fault.message = "Action type [" ++ type.name ++ "] is not supported" := by
  constructor
  · intro after g built n member kind
    obtain ⟨name, inherited, t, _, _, builds, _, rfl, _⟩ := build_eq_succeed built
    obtain ⟨ok, error, spec, action⟩ : ∃ ok error spec, n.body = .action ok error spec := by
      cases body : n.body <;> simp_all [Node.kind]
    obtain ⟨_, e, _, _, type, filled, split, _, tag, key, runs, done, written⟩ := builds.runs member action
    have inside : e ∈ root.children := by rw [split]; simp
    exact ⟨type, ⟨⟨e, inside, tag, key, runs⟩, _, _, _, _, filled, action, done, written⟩, supports_of_inherit done⟩
  · intro name type comes other unknown
    exact ⟨_, comes.refused unknown other, rfl, rfl, rfl⟩

/-! ### A workflow with an action of an unknown type -/

/-- An element of a type that is not built in. -/
def unknownType : Element := { name := "mystery" }

theorem comesToType_unknownType : ComesToType relayBuilder (relay relaySection unknownType []) .empty "s" unknownType := by
  obtain ⟨g, added, _, _⟩ := add_fresh (g := .empty "w") (n := ⟨startName, .start ["s"]⟩) rfl (by decide)
  have applied : applyGlobals relayBuilder ⟨g, .empty, none, false⟩ relaySection =
      .ok ⟨g, .empty, some relayDefaults, false⟩ := by
    rw [applyGlobals_eq]
    rfl
  have begins : Builds relayBuilder ⟨.empty "w", .empty, none, false⟩
      [{ name := Tag.start, attributes := [(Key.target, "s")] }, relaySection] ⟨g, .empty, some relayDefaults, false⟩ :=
    .step (.node rfl added) (.step (.globals rfl applied) .done)
  exact ⟨_, actionOf "s" unknownType, [], _, _, {}, ⟨"w", none, _, _, rfl, rfl, rfl, buildElements_of_builds begins⟩, rfl, by rfl,
    rfl, rfl, by decide⟩

/-- In the relay all is supported; with an unknown type in it the build fails. -/
theorem types_supported_relay : (∃ g n type, build relayBuilder (relay relaySection asking []) .empty = .succeed relayConf g ∧
      n ∈ g.nodes ∧ n.kind = .action ∧ BuiltFrom relayBuilder (relay relaySection asking []) n type ∧
      relayBuilder.inheritance.registry.supports type.name = true) ∧
    ∃ fault, (build relayBuilder (relay relaySection unknownType []) .empty).result = .error fault ∧
      fault.code? = some .unsupportedActionType ∧ fault.node? = some "s" := by
  constructor
  · obtain ⟨g, built, nodes⟩ := build_relay_asking
    have member : (⟨"x", .action "y" "y" { conf := namedFilesText }⟩ : Node) ∈ g.nodes := by
      rw [nodes]
      simp [relayNodes]
    obtain ⟨type, origin, supported⟩ := (types_supported relayBuilder (relay relaySection asking []) .empty).1 _ _ built _ member rfl
    refine ⟨g, _, type, built, member, rfl, origin, supported ?_⟩
    obtain ⟨e, inside, tag, _, runs⟩ := origin.declared
    simp only [relay, List.cons_append, List.nil_append, List.mem_cons, List.not_mem_nil, or_false] at inside
    rcases inside with rfl | rfl | rfl | rfl | rfl
    · exact absurd tag (by decide)
    · exact absurd tag (by decide)
    · cases runs
      decide
    · cases runs
      decide
    · exact absurd tag (by decide)
  · obtain ⟨fault, failed, code, node, _⟩ := (types_supported relayBuilder (relay relaySection unknownType []) .empty).2 "s"
      unknownType comesToType_unknownType (by decide) (by decide)
    exact ⟨fault, failed, code, node⟩

def sectionText : String :=
  "<global>\n  <name-node>n</name-node>\n  <job-tracker>t</job-tracker>\n  <configuration/>\n</global>"

/-- What an action runs in the end that runs an empty section. -/
def filledSection : Element := relaySection.append { name := Tag.configuration }

theorem serialize_filledSection : Markup.serialize filledSection = .ok sectionText :=
  Except.eq_ok_of_toOption (by decide +kernel)

/-- An action that runs an element with the name of the global section is built, although no such type is supported. -/
theorem relay_runs_section : ∃ g n, build relayBuilder (relay relaySection blankSection []) .empty = .succeed .empty g ∧
    n ∈ g.nodes ∧ n.kind = .action ∧ n.name = "s" ∧
    BuiltFrom relayBuilder (relay relaySection blankSection []) n blankSection ∧
    relayBuilder.inheritance.registry.supports blankSection.name = false := by
  have filled : inherit relayBuilder.inheritance blankSection (some relayDefaults) relayBuilder.layer (some "s") =
      .succeed filledSection () := by rfl
  obtain ⟨g, built, nodes⟩ := build_relay relayBuilder relaySection blankSection [] .empty .empty none relayDefaults relayDefaults
    rfl rfl (by rfl) (by decide) filled serialize_filledSection (fun _ => rfl) (fun _ => .done) (by rfl) serialize_namedFiles
  have inside : actionOf "s" blankSection ∈ (relay relaySection blankSection []).children := by simp [relay]
  exact ⟨g, ⟨"s", .action "y" "y" { conf := sectionText }⟩, built, by rw [nodes]; simp [relayNodes], rfl, rfl,
    ⟨⟨_, inside, rfl, by rfl, rfl⟩, _, _, _, _, _, rfl, filled, serialize_filledSection⟩, by decide⟩

end WorkflowCompiler.Definition
