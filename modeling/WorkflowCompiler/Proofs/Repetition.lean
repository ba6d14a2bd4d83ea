import WorkflowCompiler.Proofs.Definition.Refilling
import WorkflowCompiler.Proofs.Frame

/-!
Compiling a definition again with the job configuration that the first time has left behind. All parameters are set by
now, and the entry that hands defaults on holds those of the definition itself, so its global section is filled in from
what it has set. The two builds are read in step: their nodes are the same as long as the defaults at each action give
the same (`Builds.again`), which they do when a section comes first and is the only one (`build_again`,
`Compiler.compile_again`).
-/
namespace WorkflowCompiler
open Markup (Element)

namespace Definition
variable {b : Builder} {s t u : BuildState} {e root : Element} {i : Inheritance} {inherited again globals : Option GlobalDefaults}
  {past elements : List Element} {conf other after : Dict String} {g : Graph}

/-! ### Two builds in step -/

theorem BuildState.handOver_conf (s : BuildState) {name : String} (other : name ≠ globalsKey) :
    s.handOver.conf.get? name = s.conf.get? name := by
  rcases s.handOver_cases with ⟨_, same⟩ | ⟨g, _, _, handing⟩
  · rw [same]
  · rw [handing, Dict.get?_put, if_neg other]

theorem ReadsChild.congr {node : String} {draft done : ActionDraft} (reads : ReadsChild b node s draft e t done)
    (same : SameSupply b.inheritance s.globals u.globals) :
    ReadsChild b node u draft e (if propagates e then u.handOver else u) done := by
  cases reads with
  | ok tag leads =>
    rw [propagates_eq_false (by rw [tag]; decide), if_neg Bool.false_ne_true]
    exact .ok tag leads
  | error tag leads =>
    rw [propagates_eq_false (by rw [tag]; decide), if_neg Bool.false_ne_true]
    exact .error tag leads
  | other tag =>
    rw [propagates_eq_false (by rcases tag with tag | tag <;> rw [tag] <;> decide), if_neg Bool.false_ne_true]
    exact .other tag
  | type runs inherited =>
    rw [inherit_congr same] at inherited
    rw [← propagate_eq]
    exact .type runs inherited

/-- The children of an action are read in the same way with defaults that give the same. -/
theorem readAction_congr {node : String} {draft done : ActionDraft} {children : List Element}
    (read : readAction b node s draft children = .succeed t done) (same : SameSupply b.inheritance s.globals u.globals) :
    readAction b node u draft children = .succeed (if children.any propagates then u.handOver else u) done := by
  induction children generalizing s u draft with
  | nil =>
    cases read
    rfl
  | cons c rest ih =>
    obtain ⟨mid, next, first, onward⟩ := readAction_cons_iff.mp read
    have first' := first.congr same
    have after : SameSupply b.inheritance mid.globals (if propagates c then u.handOver else u).globals := by
      rwa [first.globals, first'.globals]
    rw [readAction_cons, first'.readChild, Attempt.andThen_succeed, ih onward after, List.any_cons]
    by_cases asks : propagates c = true
    · simp [asks]
    · simp [asks]

theorem actionNode_congr {n : Node} (read : actionNode b s e = .succeed t n) (same : SameSupply b.inheritance s.globals u.globals)
    (conf : ∀ name, name ≠ globalsKey → s.conf.get? name = u.conf.get? name) (retries : RetriesIgnore globalsKey e) :
    actionNode b u e = .succeed (if e.children.any propagates then u.handOver else u) n := by
  have state := state_of_actionNode read
  obtain ⟨node, draft, named, children, finished⟩ := actionNode_iff.mp read
  have others (name : String) (other : name ≠ globalsKey) :
      t.conf.get? name = (if e.children.any propagates then u.handOver else u).conf.get? name := by
    rw [state]
    split
    · rw [s.handOver_conf other, u.handOver_conf other, conf name other]
    · exact conf name other
  obtain ⟨ok, error, filled, text, retryMax, retryInterval, rfl, written, most, interval, rfl⟩ := finishAction_iff.mp finished
  exact actionNode_iff.mpr ⟨node, _, named, readAction_congr children same,
    finishAction_iff.mpr ⟨ok, error, filled, text, retryMax, retryInterval, rfl, written,
      (retryValue_congr (by simp) retries others node).symm.trans most,
      (retryValue_congr (by simp) retries others node).symm.trans interval, rfl⟩⟩

/-- Where two builds of a definition come to, from job configurations that agree in all that is not handed down. -/
structure InStep (b : Builder) (conf other : Dict String) (inherited again : Option GlobalDefaults) (past : List Element)
    (s u : BuildState) : Prop where
  first : Traces b conf inherited past s
  second : Traces b other again past u
  graph : u.graph = s.graph

/-- One element further. -/
theorem InStep.reads (inStep : InStep b conf other inherited again past s u) (start : inheritedGlobals conf = .ok inherited)
    (restart : inheritedGlobals other = .ok again) (agree : ∀ name, name ≠ globalsKey → conf.get? name = other.get? name)
    (undisturbed : Undisturbed (past ++ [e]))
    (sections : e.name = Tag.globals → ∃ g, sectionDefaults b.inheritance again e = .ok g)
    (actions : e.name = Tag.action → SameSupply b.inheritance s.globals u.globals)
    (retries : e.name = Tag.action → RetriesIgnore globalsKey e) (reads : Reads b s e t) :
    ∃ v, Reads b u e v ∧ InStep b conf other inherited again (past ++ [e]) t v := by
  have onward {v : BuildState} (read : Reads b u e v) (graph : v.graph = t.graph) :
      ∃ v, Reads b u e v ∧ InStep b conf other inherited again (past ++ [e]) t v :=
    ⟨v, read, inStep.first.step start undisturbed reads, inStep.second.step restart undisturbed read, graph⟩
  cases reads with
  | node declares added => exact onward (.node declares (inStep.graph ▸ added)) rfl
  | @action mid n graph tag read added =>
    have others (name : String) (other : name ≠ globalsKey) : s.conf.get? name = u.conf.get? name := by
      rw [inStep.first.get?_conf other, inStep.second.get?_conf other, agree name other]
    have read' := actionNode_congr read (actions tag) others (retries tag)
    have graphs := (actionNode_eq_succeed read').2.1
    rw [(actionNode_eq_succeed read).2.1, ← inStep.graph, ← graphs] at added
    exact onward (.action tag read' added) rfl
  | globals tag applied =>
    obtain ⟨g, set⟩ := sections tag
    obtain ⟨_, _, _, rfl, _⟩ := applyGlobals_eq_ok applied
    refine onward (v := { u with globals := some g }) (.globals tag ?_) inStep.graph
    rw [applyGlobals_eq, inStep.second.inherited_at_section restart undisturbed tag]
    simp only [set, bind, Except.bind]
    rfl
  | passed tag => exact onward (.passed tag) inStep.graph

/-- Two builds give the same graph if the defaults in effect at each action give the same. -/
theorem InStep.builds (inStep : InStep b conf other inherited again past s u) (start : inheritedGlobals conf = .ok inherited)
    (restart : inheritedGlobals other = .ok again) (agree : ∀ name, name ≠ globalsKey → conf.get? name = other.get? name)
    {rest : List Element} (undisturbed : Undisturbed (past ++ rest))
    (sections : ∀ e ∈ rest, e.name = Tag.globals → ∃ g, sectionDefaults b.inheritance again e = .ok g)
    (actions : ∀ before e later globals globals', past ++ rest = before ++ e :: later → e.name = Tag.action →
      effective b.inheritance inherited before = .ok globals → effective b.inheritance again before = .ok globals' →
      SameSupply b.inheritance globals globals')
    (retries : ∀ e ∈ rest, e.name = Tag.action → RetriesIgnore globalsKey e) (builds : Builds b s rest t) :
    ∃ v, Builds b u rest v ∧ InStep b conf other inherited again (past ++ rest) t v := by
  -- the traces of both builds say which defaults each has where it stands
  induction builds generalizing past u with
  | done => exact ⟨u, .done, by rwa [List.append_nil]⟩
  | @step s mid t e rest first _ ih =>
    have here (tag : e.name = Tag.action) : SameSupply b.inheritance s.globals u.globals :=
      actions past e rest _ _ rfl tag inStep.first.globals inStep.second.globals
    rw [List.append_cons] at undisturbed actions ⊢
    obtain ⟨v, read, inStep⟩ := inStep.reads start restart agree (undisturbed.sublist (List.sublist_append_left _ rest))
      (sections e List.mem_cons_self) here (retries e List.mem_cons_self) first
    obtain ⟨w, onward, inStep⟩ := ih inStep undisturbed (fun e member => sections e (List.mem_cons_of_mem _ member)) actions
      fun e member => retries e (List.mem_cons_of_mem _ member)
    exact ⟨w, .step read onward, inStep⟩

/-! ### A build from what it has left behind -/

/-- What a definition has in effect in the end gives the same when the definition is filled in from that. -/
theorem effective_again {set : GlobalDefaults} (first : SectionFirst elements)
    (inEffect : effective i inherited elements = .ok (some set)) :
    ∃ last, effective i (some set) elements = .ok (some last) ∧ SameSupply i (some set) (some last) ∧
      ∀ e ∈ elements, e.name = Tag.globals → sectionDefaults i (some set) e = .ok last := by
  rw [effective, first.filter_eq] at inEffect
  have only {e : Element} (member : e ∈ elements) (tag : e.name = Tag.globals) :
      e ∈ (elements.find? fun e => e.name == Tag.globals).toList := by
    rw [← first.filter_eq, List.mem_filter]
    exact ⟨member, beq_iff_eq.mpr tag⟩
  cases present : elements.find? fun e => e.name == Tag.globals with
  | none =>
    rw [present] at inEffect only
    obtain rfl : inherited = some set := Except.ok.inj inEffect
    refine ⟨set, ?_, .refl i _, fun e member tag => absurd (only member tag) (by simp)⟩
    rw [effective, first.filter_eq, present]
    rfl
  | some e =>
    rw [present] at inEffect only
    have tag : e.name = Tag.globals := by simpa using List.find?_some present
    obtain ⟨_, sets, same⟩ := Except.map_eq_ok inEffect
    cases same
    obtain ⟨last, again, supply⟩ := sectionDefaults_again tag sets
    refine ⟨last, ?_, supply, fun d member isSection => ?_⟩
    · rw [effective, first.filter_eq, present]
      simp only [Option.toList_some, List.getLast?_singleton, again]
      rfl
    · rw [List.mem_singleton.mp (only member isSection), again]

/-- A build gives the same graph again from the job configuration that it has left, and only what is handed on may differ
    in the end. -/
theorem build_again (built : build b root conf = .succeed after g) (first : SectionFirst root.children)
    (retries : ∀ e ∈ root.children, e.name = Tag.action → RetriesIgnore globalsKey e) :
    ∃ last, build b root after = .succeed last g ∧ last.keys = after.keys ∧
      ∀ name, name ≠ globalsKey → last.get? name = after.get? name := by
  have whole := built
  obtain ⟨name, inherited, t, named, start, builds, rfl, rfl, started⟩ := build_eq_succeed built
  have traces := (Traces.start b conf inherited name).builds start first.undisturbed builds
  rw [List.nil_append] at traces
  cases propagated : t.propagated with
  | false =>
    obtain ⟨same, _⟩ := traces.kept propagated
    rw [same] at whole ⊢
    exact ⟨conf, whole, rfl, fun _ _ => rfl⟩
  | true =>
    obtain ⟨before, action, later, set, split, asks, handed, same⟩ := traces.handed propagated
    rw [← first.effective_before split (tag_of_handsOn asks)] at handed
    obtain ⟨last, again, supply, sections⟩ := effective_again first handed
    have restart : inheritedGlobals t.conf = .ok (some set) := by rw [same, inheritedGlobals_put]
    have agree (key : String) (other : key ≠ globalsKey) : conf.get? key = t.conf.get? key := by
      rw [same, Dict.get?_put, if_neg other]
    have inStep : InStep b conf t.conf inherited (some set) [] ⟨.empty name, conf, inherited, false⟩
        ⟨.empty name, t.conf, some set, false⟩ := ⟨.start _ _ _ _, .start _ _ _ _, rfl⟩
    obtain ⟨v, builds', inStep⟩ := inStep.builds start restart agree first.undisturbed
      (fun e member tag => ⟨last, sections e member tag⟩)
      (fun before e later globals globals' split tag here here' => by
        rw [← first.effective_before split tag] at here here'
        rw [handed] at here
        rw [again] at here'
        cases here
        cases here'
        exact supply) retries builds
    have built' := build_of_builds named restart builds' (by rw [inStep.graph]; exact started)
    rw [inStep.graph] at built'
    refine ⟨v.conf, built', ?_, fun key other => inStep.second.get?_conf other⟩
    have present : globalsKey ∈ t.conf.keys := by
      rw [same, Dict.mem_keys_iff, Dict.contains, Dict.get?_put, if_pos rfl]
      rfl
    cases sent : v.propagated with
    | false => rw [(inStep.second.kept sent).1]
    | true =>
      obtain ⟨_, _, _, _, _, _, _, put⟩ := inStep.second.handed sent
      rw [put, Dict.keys_put, if_pos present]

end Definition

open Definition

namespace Compiler
variable {c : Compiler} {definition : String} {conf : Dict String} {layer : Option (Dict String)} {compiled : Compiled}
  {root : Element}

/-- A build takes nothing out of a job configuration. -/
theorem contains_of_build {b : Builder} {settled after : Dict String} {g : Graph} (built : build b root settled = .succeed after g)
    {name : String} (present : settled.contains name = true) : after.contains name = true := by
  have left := build_leaves b root settled
  rw [built] at left
  rw [← Dict.mem_keys_iff] at present ⊢
  rcases left with same | ⟨_, _, same | ⟨g, _, same⟩⟩
  · obtain rfl : after = settled := same
    exact present
  · obtain rfl : after = settled := same
    exact present
  · obtain rfl : after = settled.put globalsKey g.encode := same
    exact (Dict.keys_put_prefix _ _ _).subset present

/-- Compiling a definition again, with the job configuration that the first time has left, gives the same graph and the
    same report, and changes at most the entry that hands defaults on. -/
theorem compile_again (done : (c.compile definition conf layer).result = .ok compiled)
    (parsed : Markup.parse definition = .ok root) (first : SectionFirst root.children)
    (retries : ∀ e ∈ root.children, e.name = Tag.action → RetriesIgnore globalsKey e) :
    (c.compile definition (c.compile definition conf layer).state.conf layer).result = .ok compiled ∧
      (c.compile definition (c.compile definition conf layer).state.conf layer).state.conf.keys =
        (c.compile definition conf layer).state.conf.keys ∧
      ∀ key, key ≠ globalsKey →
        (c.compile definition (c.compile definition conf layer).state.conf layer).state.conf.get? key =
          (c.compile definition conf layer).state.conf.get? key := by
  obtain ⟨_, settled, after, g, stages⟩ := stages_of_compile done
  rw [stages.parsed] at parsed
  cases parsed
  obtain ⟨last, built, keys, values⟩ := build_again stages.built first retries
  have verified := verifyParameters_again stages.verified fun name => contains_of_build stages.built
  have forkJoin : c.checksForkJoin last = c.checksForkJoin after := by
    rw [checksForkJoin, checksForkJoin, readSwitch, readSwitch, values forkJoinKey (by decide)]
  have again : c.Stages definition after layer compiled root after last g :=
    ⟨stages.schema, stages.parsed, verified, built, stages.checked, fun checks => stages.forkJoin (forkJoin ▸ checks), stages.compiled⟩
  rw [stages.conf_after, again.conf_after]
  exact ⟨again.compile, keys, values⟩

theorem compile_again_relay : ∃ definition compiled, (compile {} definition .empty).result = .ok compiled ∧
    Markup.parse definition = .ok (relay relaySection asking []) ∧ SectionFirst (relay relaySection asking []).children ∧
    (∀ e ∈ (relay relaySection asking []).children, e.name = Tag.action → RetriesIgnore globalsKey e) ∧
    (compile {} definition .empty).state.conf = relayConf ∧ (compile {} definition relayConf).result = .ok compiled := by
  obtain ⟨definition, _, parsed⟩ := Markup.exists_text (e := relay relaySection asking []) (by decide +kernel) (by decide +kernel)
    (by decide) (by decide)
  have reads := Markup.parse_of_serialize (by decide +kernel) (by decide +kernel) (by decide) (by decide) serialize_asking
  obtain ⟨compiled, done, left, _⟩ := compile_relay rfl rfl parsed build_relay_asking reads (by decide)
  have first : SectionFirst (relay relaySection asking []).children := by decide
  have retries := retriesIgnore_relay asking (List.forall_mem_nil _) globalsKey
  have again := (compile_again done parsed first retries).1
  rw [left] at again
  exact ⟨definition, compiled, done, parsed, first, retries, left, again⟩

end Compiler
end WorkflowCompiler
