import WorkflowCompiler.Proofs.Definition.Build
import WorkflowCompiler.Proofs.Globals.Blob

/-!
Which defaults are in effect where, and which are handed on. While a definition is read, the defaults in
effect are those of its last global section, filled in from what the workflow was handed, and before the first
section they are what it was handed (`effective`). The first action that runs another workflow and asks for it
writes them into the job configuration, which nothing else changes (`Traces`). A later section is filled in from
the job configuration as it is then; that makes no difference as long as no section comes after an action that
handed on defaults of the workflow itself (`Undisturbed`, `Builds.traces`).
-/
namespace WorkflowCompiler.Definition
open Markup (Element)

/-- The defaults that a global section sets in a workflow that was handed some. -/
def sectionDefaults (i : Inheritance) (inherited : Option GlobalDefaults) (e : Element) : Except Fault GlobalDefaults :=
  match inherited with
  | none => GlobalDefaults.ofSection e
  | some g =>
    let filled := inherit i e (some g) none none
    match filled.result with
    | .error fault => .error fault
    | .ok () => GlobalDefaults.ofSection filled.state

/-- The defaults in effect after some elements of a workflow that was handed some. -/
def effective (i : Inheritance) (inherited : Option GlobalDefaults) (past : List Element) : Except Fault (Option GlobalDefaults) :=
  match (past.filter fun e => e.name == Tag.globals).getLast? with
  | none => .ok inherited
  | some e => (sectionDefaults i inherited e).map some

/-- Whether an element is an action that asks to hand the defaults on. -/
def handsOn (e : Element) : Bool := e.name == Tag.action && e.children.any propagates

/-- No global section comes after an action that may hand on what an earlier section set. -/
def Undisturbed (elements : List Element) : Prop :=
  ∀ first action last, [first, action, last].Sublist elements → first.name = Tag.globals → handsOn action = true →
    last.name ≠ Tag.globals

/-- Hands the defaults on, if there are some and that was not done before. -/
def BuildState.handOver (s : BuildState) : BuildState :=
  match s.globals with
  | none => s
  | some g => if s.propagated then s else { s with conf := s.conf.put globalsKey g.encode, propagated := true }

variable {b : Builder} {s t : BuildState} {e : Element} {i : Inheritance} {inherited : Option GlobalDefaults}
  {past : List Element} {conf : Dict String}

/-! ### Defaults in effect -/

theorem effective_section (tag : e.name = Tag.globals) :
    effective i inherited (past ++ [e]) = (sectionDefaults i inherited e).map some := by
  rw [effective, List.filter_append, List.filter_cons_of_pos (by simpa using tag), List.filter_nil, List.getLast?_concat]

/-- Only global sections change the defaults in effect. -/
theorem effective_others {later : List Element} (others : ∀ e ∈ later, e.name ≠ Tag.globals) :
    effective i inherited (past ++ later) = effective i inherited past := by
  have none : later.filter (fun e => e.name == Tag.globals) = [] :=
    List.filter_eq_nil_iff.mpr fun e member => by simpa using others e member
  rw [effective, List.filter_append, none, List.append_nil, effective]

theorem effective_of_no_section (others : ∀ e ∈ past, e.name ≠ Tag.globals) : effective i inherited past = .ok inherited := by
  have same : effective i inherited ([] ++ past) = effective i inherited [] := effective_others others
  exact same

theorem applyGlobals_eq (b : Builder) (s : BuildState) (e : Element) :
    applyGlobals b s e = (do
      let inherited ← inheritedGlobals s.conf
      let globals ← sectionDefaults b.inheritance inherited e
      pure { s with globals := some globals }) := by
  rw [applyGlobals, inheritedGlobals]
  cases s.conf.get? globalsKey with
  | none => rfl
  | some blob =>
    dsimp only
    cases GlobalDefaults.decode blob with
    | error fault => rfl
    | ok g =>
      simp only [Except.map, sectionDefaults]
      cases result : (inherit b.inheritance e (some g) none none).result with
      | error fault => simp [result, bind, Except.bind]
      | ok _ => simp [result, bind, Except.bind]

/-! ### Handing on -/

/-- Either there is nothing to hand on any more, or the defaults in effect are handed on. -/
theorem BuildState.handOver_cases (s : BuildState) :
    ((s.globals = none ∨ s.propagated = true) ∧ s.handOver = s) ∨
      ∃ g, s.globals = some g ∧ s.propagated = false ∧
        s.handOver = { s with conf := s.conf.put globalsKey g.encode, propagated := true } := by
  unfold handOver
  cases s.globals with
  | none => exact .inl ⟨.inl rfl, rfl⟩
  | some g =>
    cases s.propagated with
    | true => exact .inl ⟨.inr rfl, rfl⟩
    | false => exact .inr ⟨g, rfl, rfl, rfl⟩

@[simp] theorem BuildState.handOver_handOver (s : BuildState) : s.handOver.handOver = s.handOver := by
  rcases s.handOver_cases with ⟨_, same⟩ | ⟨g, present, _, handing⟩
  · rw [same, same]
  · rw [handing, handOver]
    simp [present]

theorem propagate_eq (s : BuildState) (e : Element) : propagate s e = if propagates e then s.handOver else s := by
  unfold propagate BuildState.handOver
  cases s.globals with
  | none => simp
  | some g => by_cases asks : propagates e <;> by_cases before : s.propagated <;> simp [asks, before]

/-- Only an element that runs another workflow hands defaults on. -/
theorem propagates_eq_false (other : e.name ≠ Tag.subWorkflow) : propagates e = false := by
  rw [propagates, Bool.and_eq_false_iff]
  exact .inl (by simpa using other)

theorem tag_of_handsOn (asks : handsOn e = true) : e.name = Tag.action := by
  rw [handsOn, Bool.and_eq_true] at asks
  exact beq_iff_eq.mp asks.1

theorem handsOn_eq_any (tag : e.name = Tag.action) : handsOn e = e.children.any propagates := by
  rw [handsOn, tag]
  rfl

theorem handsOn_eq_false (other : e.name ≠ Tag.action) : handsOn e = false :=
  Bool.eq_false_iff.mpr fun asks => other (tag_of_handsOn asks)

theorem ReadsChild.state {node : String} {draft after : ActionDraft} (reads : ReadsChild b node s draft e t after) :
    t = if propagates e then s.handOver else s := by
  cases reads with
  | ok tag => rw [propagates_eq_false (by rw [tag]; decide), if_neg Bool.false_ne_true]
  | error tag => rw [propagates_eq_false (by rw [tag]; decide), if_neg Bool.false_ne_true]
  | other tag =>
    rw [propagates_eq_false (by rcases tag with tag | tag <;> rw [tag] <;> decide), if_neg Bool.false_ne_true]
  | type => exact propagate_eq s e

theorem state_of_readAction {node : String} {draft after : ActionDraft} {children : List Element}
    (read : readAction b node s draft children = .succeed t after) :
    t = if children.any propagates then s.handOver else s := by
  induction children generalizing s draft with
  | nil =>
    cases read
    rfl
  | cons c rest ih =>
    obtain ⟨mid, next, first, onward⟩ := readAction_cons_iff.mp read
    rw [ih onward, first.state, List.any_cons]
    by_cases asks : propagates c = true
    · simp [asks]
    · simp [asks]

theorem state_of_actionNode {n : Node} (read : actionNode b s e = .succeed t n) :
    t = if e.children.any propagates then s.handOver else s := by
  obtain ⟨node, draft, _, children, _⟩ := actionNode_iff.mp read
  exact state_of_readAction children

/-- What reading an element does besides adding a node. -/
theorem Reads.effects (reads : Reads b s e t) :
    (e.name = Tag.globals ∧ ∃ inherited g, inheritedGlobals s.conf = .ok inherited ∧
      sectionDefaults b.inheritance inherited e = .ok g ∧ t = { s with globals := some g }) ∨
    (e.name ≠ Tag.globals ∧ t = { (if handsOn e then s.handOver else s) with graph := t.graph }) := by
  cases reads with
  | node declares added =>
    refine .inr ⟨fun tag => ?_, ?_⟩
    · rw [plainNode?_globals tag] at declares
      cases declares
    · rw [handsOn_eq_false fun tag => by rw [plainNode?_action tag] at declares; cases declares]
      rfl
  | action tag read added =>
    refine .inr ⟨by rw [tag]; decide, ?_⟩
    rw [handsOn_eq_any tag, ← state_of_actionNode read]
  | globals tag applied =>
    rw [applyGlobals_eq] at applied
    obtain ⟨inherited, handed, applied⟩ := Except.bind_eq_ok applied
    obtain ⟨g, set, applied⟩ := Except.bind_eq_ok applied
    cases applied
    exact .inl ⟨tag, inherited, g, handed, set, rfl⟩
  | passed tag =>
    refine .inr ⟨fun same => by rw [same] at tag; exact absurd tag (by decide), ?_⟩
    rw [handsOn_eq_false fun same => by rw [same] at tag; exact absurd tag (by decide)]
    rfl

theorem inheritedGlobals_put (conf : Dict String) (g : GlobalDefaults) :
    inheritedGlobals (conf.put globalsKey g.encode) = .ok (some g) := by
  rw [inheritedGlobals, Dict.get?_put, if_pos rfl]
  simp only [GlobalDefaults.decode_eq_ok.mpr (GlobalDefaults.decode?_encode g)]
  rfl

/-! ### States of a build -/

/-- The state that a build comes to after some elements, from a job configuration that hands some defaults down. -/
structure Traces (b : Builder) (conf : Dict String) (inherited : Option GlobalDefaults) (past : List Element) (s : BuildState) :
    Prop where
  globals : effective b.inheritance inherited past = .ok s.globals
  /-- As long as nothing was handed on, there was nothing when an action asked. -/
  kept : s.propagated = false → s.conf = conf ∧
    ∀ before action after, past = before ++ action :: after → handsOn action = true →
      effective b.inheritance inherited before = .ok none
  /-- What was handed on was in effect when an action asked. -/
  handed : s.propagated = true → ∃ before action after g, past = before ++ action :: after ∧ handsOn action = true ∧
    effective b.inheritance inherited before = .ok (some g) ∧ s.conf = conf.put globalsKey g.encode

theorem Undisturbed.sublist {elements fewer : List Element} (undisturbed : Undisturbed elements) (fewerOf : fewer.Sublist elements) :
    Undisturbed fewer := fun first action last found => undisturbed first action last (found.trans fewerOf)

theorem append_cons_eq_append_singleton {α : Type} {before after past : List α} {x e : α}
    (split : past ++ [e] = before ++ x :: after) :
    (past = before ∧ e = x ∧ after = []) ∨ ∃ rest, after = rest ++ [e] ∧ past = before ++ x :: rest := by
  induction after using List.reverseRecOn with
  | nil =>
    obtain ⟨same, last⟩ := List.append_inj' split rfl
    exact .inl ⟨same, (List.cons.inj last).1, rfl⟩
  | append_singleton rest y _ =>
    rw [← List.cons_append, ← List.append_assoc] at split
    obtain ⟨same, last⟩ := List.append_inj' split rfl
    rw [(List.cons.inj last).1]
    exact .inr ⟨rest, rfl, same⟩

namespace Traces

/-- Where a section stands, the job configuration still hands down what it handed to the workflow. -/
theorem inherited_at_section (traces : Traces b conf inherited past s) (start : inheritedGlobals conf = .ok inherited)
    (undisturbed : Undisturbed (past ++ [e])) (tag : e.name = Tag.globals) : inheritedGlobals s.conf = .ok inherited := by
  cases propagated : s.propagated with
  | false => rw [(traces.kept propagated).1, start]
  | true =>
    obtain ⟨before, action, after, g, rfl, asks, inEffect, same⟩ := traces.handed propagated
    have others : ∀ first ∈ before, first.name ≠ Tag.globals := by
      intro first member isSection
      refine undisturbed first action e ?_ isSection asks tag
      rw [List.append_assoc, List.cons_append]
      exact (List.singleton_sublist.mpr member).append ((List.sublist_append_right after [e]).cons_cons action)
    rw [effective_of_no_section others] at inEffect
    cases inEffect
    rw [same, inheritedGlobals_put]

/-- What was handed on stays what it was. -/
theorem handed_append (traces : Traces b conf inherited past s) (propagated : s.propagated = true) (e : Element) :
    ∃ before action after g, past ++ [e] = before ++ action :: after ∧ handsOn action = true ∧
      effective b.inheritance inherited before = .ok (some g) ∧ s.conf = conf.put globalsKey g.encode := by
  obtain ⟨before, action, after, g, rfl, handed⟩ := traces.handed propagated
  exact ⟨before, action, after ++ [e], g, by rw [List.append_assoc, List.cons_append], handed⟩

theorem section_step (traces : Traces b conf inherited past s) (tag : e.name = Tag.globals) {g : GlobalDefaults}
    (set : sectionDefaults b.inheritance inherited e = .ok g) : Traces b conf inherited (past ++ [e]) { s with globals := some g } := by
  have quiet : handsOn e = false := handsOn_eq_false (by rw [tag]; decide)
  refine ⟨by rw [effective_section tag, set]; rfl, fun unsent => ⟨(traces.kept unsent).1, fun before action after split asks => ?_⟩,
    fun sent => traces.handed_append sent e⟩
  rcases append_cons_eq_append_singleton split with ⟨_, rfl, _⟩ | ⟨rest, _, earlier⟩
  · rw [quiet] at asks
    cases asks
  · exact (traces.kept unsent).2 before action rest earlier asks

/-- An element that sets no defaults and has none to hand on changes at most the graph. -/
theorem idle_step (traces : Traces b conf inherited past s) (tag : e.name ≠ Tag.globals)
    (idle : handsOn e = true → s.globals = none ∨ s.propagated = true) (graph : Graph) :
    Traces b conf inherited (past ++ [e]) { s with graph := graph } := by
  refine ⟨by rw [effective_others (List.forall_mem_singleton.mpr tag), traces.globals],
    fun unsent => ⟨(traces.kept unsent).1, fun before action after split asks => ?_⟩, fun sent => traces.handed_append sent e⟩
  have unsent : s.propagated = false := unsent
  rcases append_cons_eq_append_singleton split with ⟨rfl, rfl, _⟩ | ⟨rest, _, earlier⟩
  · have none := (idle asks).resolve_right (by rw [unsent]; decide)
    rw [traces.globals, none]
  · exact (traces.kept unsent).2 before action rest earlier asks

theorem handing_step (traces : Traces b conf inherited past s) (tag : e.name ≠ Tag.globals) (asks : handsOn e = true)
    {g : GlobalDefaults} (present : s.globals = some g) (unsent : s.propagated = false) (graph : Graph) :
    Traces b conf inherited (past ++ [e]) { s with graph := graph, conf := s.conf.put globalsKey g.encode, propagated := true } := by
  refine ⟨by rw [effective_others (List.forall_mem_singleton.mpr tag), traces.globals], nofun, fun _ => ?_⟩
  refine ⟨past, e, [], g, rfl, asks, by rw [traces.globals, present], ?_⟩
  rw [(traces.kept unsent).1]

theorem step (traces : Traces b conf inherited past s) (start : inheritedGlobals conf = .ok inherited)
    (undisturbed : Undisturbed (past ++ [e])) (reads : Reads b s e t) : Traces b conf inherited (past ++ [e]) t := by
  rcases reads.effects with ⟨tag, handedDown, g, current, set, rfl⟩ | ⟨tag, same⟩
  · rw [traces.inherited_at_section start undisturbed tag] at current
    cases current
    exact traces.section_step tag set
  · cases asks : handsOn e with
    | false =>
      rw [same, asks]
      exact traces.idle_step tag (by rw [asks]; nofun) t.graph
    | true =>
      rw [same, asks, if_pos rfl]
      rcases s.handOver_cases with ⟨idle, kept⟩ | ⟨g, present, before, handing⟩
      · rw [kept]
        exact traces.idle_step tag (fun _ => idle) t.graph
      · rw [handing]
        exact traces.handing_step tag asks present before t.graph

/-- The traces of a whole build, or of its beginning. -/
theorem builds (traces : Traces b conf inherited past s) (start : inheritedGlobals conf = .ok inherited) {elements : List Element}
    (undisturbed : Undisturbed (past ++ elements)) (builds : Builds b s elements t) : Traces b conf inherited (past ++ elements) t := by
  induction builds generalizing past with
  | done => rwa [List.append_nil]
  | @step s mid t e rest first _ ih =>
    rw [List.append_cons] at undisturbed ⊢
    exact ih (traces.step start (undisturbed.sublist (List.sublist_append_left _ rest)) first) undisturbed

theorem start (b : Builder) (conf : Dict String) (inherited : Option GlobalDefaults) (name : String) :
    Traces b conf inherited [] ⟨.empty name, conf, inherited, false⟩ where
  globals := rfl
  kept _ := ⟨rfl, fun before action after split => by simp at split⟩
  handed := nofun

end Traces
end WorkflowCompiler.Definition
