import WorkflowCompiler.Proofs.Definition.Build
import WorkflowCompiler.Proofs.Definition.Schema

/-!
The schema and the builder agree: a definition that the schema accepts is never
refused by the builder for its form (`build_of_validateSchema`). What can fail for
other reasons, such as what an action inherits, is left aside first; then every
element that fits its shape has all that the builder requires of it.
-/
namespace WorkflowCompiler

/-- A fault that says that a definition is not of the right form. -/
def Fault.Formal (fault : Fault) : Prop := fault.code? = some .schemaViolation ∨ fault.code? = some .unknownElement

instance (fault : Fault) : Decidable fault.Formal := inferInstanceAs (Decidable (_ ∨ _))

/-- A result that is no fault of form. -/
def NoFormal {α : Type} (result : Except Fault α) : Prop := ∀ fault, result = .error fault → ¬ fault.Formal

namespace NoFormal
variable {α β σ : Type} {result : Except Fault α}

theorem ok (value : α) : NoFormal (.ok value : Except Fault α) := by
  intro fault failed
  cases failed

theorem error {fault : Fault} (other : ¬ fault.Formal) : NoFormal (.error fault : Except Fault α) := by
  intro fault' failed
  cases failed
  exact other

theorem bind {next : α → Except Fault β} (first : NoFormal result) (later : ∀ a, NoFormal (next a)) :
    NoFormal (result >>= next) := by
  cases result with
  | error fault => exact error (first fault rfl)
  | ok a => exact later a

theorem map {f : α → β} (first : NoFormal result) : NoFormal (result.map f) := by
  cases result with
  | error fault => exact error (first fault rfl)
  | ok a => exact ok (f a)

theorem mapM {γ : Type} {f : γ → Except Fault α} {items : List γ} (all : ∀ x ∈ items, NoFormal (f x)) :
    NoFormal (items.mapM f) := by
  induction items with
  | nil => exact ok []
  | cons x items ih =>
    obtain ⟨first, others⟩ := List.forall_mem_cons.mp all
    rw [List.mapM_cons]
    exact first.bind fun a => (ih others).bind fun rest => ok (a :: rest)

theorem andThen {a : Attempt σ α} {next : σ → α → Attempt σ β} (first : NoFormal a.result)
    (later : ∀ t x, a = .succeed t x → NoFormal (next t x).result) : NoFormal (a.andThen next).result := by
  obtain ⟨t, result⟩ := a
  cases result with
  | error fault => exact error (first fault rfl)
  | ok x => exact later t x rfl

end NoFormal

namespace Definition
open Markup (Element)

variable {b : Builder} {s : BuildState} {e : Element}

/-! ### Faults of other kinds -/

theorem noFormal_readProperties (owner : String) (d : Dict String) (properties : List Element) :
    NoFormal (readProperties owner d properties) := by
  have refused : ¬ (Fault.propertyWithoutName owner).Formal := by simp [Fault.Formal, Fault.code?]
  induction properties generalizing d with
  | nil => exact .ok d
  | cons p rest ih =>
    unfold readProperties
    split
    · exact .error refused
    · split
      · exact .error refused
      · split
        · exact ih d
        · exact ih _

theorem noFormal_readConfiguration (e : Element) : NoFormal (readConfiguration e) :=
  noFormal_readProperties _ _ _

theorem noFormal_decode (blob : String) : NoFormal (GlobalDefaults.decode blob) := by
  unfold GlobalDefaults.decode
  split
  · exact .ok _
  · exact .error (by decide)

theorem noFormal_ofSection (e : Element) : NoFormal (GlobalDefaults.ofSection e) := by
  unfold GlobalDefaults.ofSection
  dsimp only
  split
  · exact .ok _
  · exact (noFormal_readConfiguration _).map

theorem noFormal_stepOf {σ : Type} {state : σ} {result : Except Fault σ} (inner : NoFormal result) :
    NoFormal (stepOf state result).result := by
  cases result with
  | ok next => exact .ok ()
  | error fault => exact .error (inner fault rfl)

theorem noFormal_fillEndpoint (e : Element) (field : String) (inherited siteDefault : Option String) (exempt : Bool)
    (node : Option String) : NoFormal (fillEndpoint e field inherited siteDefault exempt node) := by
  unfold fillEndpoint
  split
  · exact .ok _
  · split
    · exact .ok _
    · split
      · exact .ok _
      · exact .error (by simp [Fault.Formal, Fault.code?])

theorem noFormal_mergeConfiguration (e : Element) (globals : Option GlobalDefaults) (layer : Option (Dict String)) :
    NoFormal (mergeConfiguration e globals layer) := by
  unfold mergeConfiguration
  dsimp only
  split
  · exact .ok _
  · rename_i own _
    have inner := noFormal_readConfiguration own
    split
    · rename_i refused
      exact .error (inner _ refused)
    · exact .ok _

theorem noFormal_resolveEndpoints (i : Inheritance) (e : Element) (globals : Option GlobalDefaults)
    (node : Option String) : NoFormal (resolveEndpoints i e globals node).result := by
  unfold resolveEndpoints
  refine .andThen (noFormal_stepOf (noFormal_fillEndpoint _ _ _ _ _ _)) fun filled _ _ => ?_
  split
  · exact .ok ()
  · exact noFormal_stepOf (noFormal_fillEndpoint _ _ _ _ _ _)

theorem noFormal_inherit (i : Inheritance) (e : Element) (globals : Option GlobalDefaults)
    (layer : Option (Dict String)) (node : Option String) : NoFormal (inherit i e globals layer node).result := by
  unfold inherit
  dsimp only
  split
  · exact .error (by simp [Fault.Formal, Fault.code?])
  · refine .andThen ?_ fun filled _ _ => ?_
    · split
      · exact noFormal_resolveEndpoints i e globals node
      · exact .ok ()
    · split
      · exact noFormal_stepOf (noFormal_mergeConfiguration _ _ _)
      · exact .ok ()

theorem noFormal_writeElement (e : Element) : NoFormal (writeElement e) := by
  unfold writeElement
  split
  · exact .ok _
  · exact .error (by simp [Fault.Formal, Fault.code?])

theorem noFormal_retryValue (e : Element) (key node : String) (conf : Dict String) :
    NoFormal (retryValue e key node conf) := by
  unfold retryValue
  split
  · exact .ok _
  · split
    · exact .ok _
    · split
      · exact .ok _
      · exact .error (by simp [Fault.Formal, Fault.code?])

theorem noFormal_applyGlobals (b : Builder) (s : BuildState) (e : Element) : NoFormal (applyGlobals b s e) := by
  have later (filled : Element) :
      NoFormal (do let globals ← GlobalDefaults.ofSection filled; pure { s with globals := some globals }) :=
    (noFormal_ofSection filled).bind fun globals => .ok _
  unfold applyGlobals
  dsimp only
  split
  · exact later e
  · exact (noFormal_decode _).bind fun inherited => (noFormal_inherit _ _ _ _ _).map.bind later

theorem noFormal_add (g : Graph) (n : Node) : NoFormal (g.add n) := by
  unfold Graph.add
  split
  · exact .error (by simp [Fault.Formal, Fault.code?])
  · split
    · exact .error (by simp [Fault.Formal, Fault.code?])
    · exact .ok _

theorem noFormal_addNode (s : BuildState) {n : Except Fault Node} (inner : NoFormal n) : NoFormal (addNode s n).result := by
  unfold addNode
  split
  · rename_i fault
    exact .error (inner fault rfl)
  · rename_i n
    have added := noFormal_add s.graph n
    split
    · rename_i refused
      exact .error (added _ refused)
    · exact .ok ()

/-! ### Elements that fit their shapes -/

theorem requireAttribute_of_has {key : String} (has : HasAttribute e key) : ∃ value, requireAttribute e key = .ok value := by
  obtain ⟨value, present, visible⟩ := has
  exact ⟨value, by simp [requireAttribute, present, visible]⟩

theorem noFormal_requireAttribute {key : String} (has : HasAttribute e key) : NoFormal (requireAttribute e key) := by
  obtain ⟨value, present⟩ := requireAttribute_of_has has
  rw [present]
  exact .ok value

/-- A rule that asks for at least one child gives the first one, which fits. -/
theorem child?_of_least {tag : String} {least : Nat} {shape : Shape} (some : 0 < least)
    (fits : ∀ c ∈ e.childrenNamed tag, shape.Fits c) (many : least ≤ (e.childrenNamed tag).length) :
    ∃ c, e.child? tag = .some c ∧ shape.Fits c := by
  have first : e.child? tag = (e.childrenNamed tag).head? := by
    simp [Element.child?, Element.childrenNamed]
  cases named : e.childrenNamed tag with
  | nil =>
    rw [named] at many
    exact absurd some (Nat.not_lt.mpr many)
  | cons c rest =>
    rw [named] at fits first
    exact ⟨c, first, fits c (List.mem_cons_self ..)⟩

theorem has_of_attributesOnly {key : String} {keys : List String} (fits : (Shape.attributesOnly keys).Fits e)
    (asked : key ∈ keys) : HasAttribute e key := by
  unfold Shape.attributesOnly Shape.Fits at fits
  exact fits.1 key asked

theorem has_target (fits : Shape.transition.Fits e) : HasAttribute e Key.target :=
  has_of_attributesOnly fits (List.mem_singleton_self _)

theorem noFormal_decisionNode (named : HasAttribute e Key.name)
    (fits : (Rules.cons Tag.switch 1 (some 1) Shape.switch .nil).Fits e) : NoFormal (decisionNode e) := by
  obtain ⟨switches, least, _⟩ := fits
  obtain ⟨switch, present, fits⟩ := child?_of_least Nat.one_pos switches least
  obtain ⟨_, ⟨cases', _, _, defaults, least, _⟩, _⟩ := fits
  obtain ⟨last, otherwise, fits⟩ := child?_of_least Nat.one_pos defaults least
  refine (noFormal_requireAttribute named).bind fun name => ?_
  rw [present]
  dsimp only
  rw [otherwise]
  dsimp only
  refine (NoFormal.mapM fun c member => noFormal_requireAttribute (has_target (cases' c member))).bind fun targets => ?_
  exact (noFormal_requireAttribute (has_target fits)).bind fun target => (noFormal_writeElement switch).bind fun text => .ok _

theorem noFormal_plain {shape : Shape} {n : Except Fault Node} (plain : Plain e n)
    (known : Shape.ofTag? e.name = some shape) (fits : shape.Fits e) : NoFormal n := by
  cases plain with
  | start tag =>
    rw [tag] at known
    cases known
    exact (noFormal_requireAttribute (has_target fits)).map
  | finish tag =>
    rw [tag] at known
    cases known
    exact (noFormal_requireAttribute (has_of_attributesOnly fits (List.mem_singleton_self _))).map
  | kill tag =>
    rw [tag] at known
    cases known
    exact (noFormal_requireAttribute (fits.1 Key.name (List.mem_singleton_self _))).map
  | fork tag =>
    rw [tag] at known
    cases known
    obtain ⟨named, ⟨paths, _⟩, _⟩ := fits
    refine (noFormal_requireAttribute (named Key.name (List.mem_singleton_self _))).bind fun name => ?_
    refine (NoFormal.mapM fun p member => ?_).bind fun targets => .ok _
    exact noFormal_requireAttribute (has_of_attributesOnly (paths p member) (List.mem_singleton_self _))
  | join tag =>
    rw [tag] at known
    cases known
    refine (noFormal_requireAttribute (has_of_attributesOnly fits (List.mem_cons_self ..))).bind fun name => ?_
    exact (noFormal_requireAttribute (has_of_attributesOnly fits (by simp))).bind fun target => .ok _
  | decision tag =>
    rw [tag] at known
    cases known
    exact noFormal_decisionNode (fits.1 Key.name (List.mem_singleton_self _)) fits.2.1

theorem noFormal_readChild {node : String} {draft : ActionDraft}
    (leads : e.name = Tag.ok ∨ e.name = Tag.error → HasAttribute e Key.target) :
    NoFormal (readChild b node s draft e).result := by
  unfold readChild
  split
  · rename_i tag
    exact (noFormal_requireAttribute (leads (.inl tag))).map
  split
  · rename_i tag
    exact (noFormal_requireAttribute (leads (.inr tag))).map
  split
  · exact .ok draft
  · exact (noFormal_inherit b.inheritance e s.globals b.layer (some node)).map

theorem noFormal_readAction {node : String} {draft : ActionDraft} {children : List Element}
    (leads : ∀ c ∈ children, c.name = Tag.ok ∨ c.name = Tag.error → HasAttribute c Key.target) :
    NoFormal (readAction b node s draft children).result := by
  induction children generalizing s draft with
  | nil => exact .ok draft
  | cons c rest ih =>
    obtain ⟨first, others⟩ := List.forall_mem_cons.mp leads
    rw [readAction_cons]
    exact (noFormal_readChild first).andThen fun _ _ _ => ih others

theorem noFormal_finishAction {node : String} {draft : ActionDraft} (conf : Dict String) (runs : draft.conf.isSome = true)
    (ok : draft.okTarget.isSome = true) (error : draft.errorTarget.isSome = true) :
    NoFormal (finishAction e node draft conf) := by
  obtain ⟨element, runs⟩ := Option.isSome_iff_exists.mp runs
  obtain ⟨okTarget, ok⟩ := Option.isSome_iff_exists.mp ok
  obtain ⟨errorTarget, error⟩ := Option.isSome_iff_exists.mp error
  unfold finishAction
  rw [runs, ok, error]
  refine (noFormal_writeElement element).bind fun text => ?_
  exact (noFormal_retryValue _ _ _ _).bind fun retryMax => (noFormal_retryValue _ _ _ _).bind fun retryInterval => .ok _

/-- An action that fits has a child that says what to run, and leads on in both cases. -/
theorem noFormal_actionNode (fits : Shape.action.Fits e) : NoFormal (actionNode b s e).result := by
  obtain ⟨named, ⟨oks, leastOk, _, errors, leastError, _⟩, oneType⟩ := fits
  obtain ⟨node, present⟩ := requireAttribute_of_has (named Key.name (List.mem_singleton_self _))
  have leads (c : Element) (member : c ∈ e.children) (tag : c.name = Tag.ok ∨ c.name = Tag.error) :
      HasAttribute c Key.target := by
    rcases tag with tag | tag
    · exact has_target (oks c (List.mem_filter.mpr ⟨member, by simp [tag]⟩))
    · exact has_target (errors c (List.mem_filter.mpr ⟨member, by simp [tag]⟩))
  unfold actionNode
  rw [present]
  refine (noFormal_readAction leads).andThen fun t draft read => ?_
  have reads := readsAction_of_readAction read
  have has {tag : String} (many : 1 ≤ (e.childrenNamed tag).length) : ∃ c ∈ e.children, c.name = tag := by
    obtain ⟨c, member⟩ := List.exists_mem_of_length_pos many
    obtain ⟨member, same⟩ := List.mem_filter.mp member
    exact ⟨c, member, by simpa using same⟩
  refine noFormal_finishAction _ ?_ (reads.ok (.inl (has leastOk))) (reads.error (.inl (has leastError)))
  have conf := reads.conf
  cases runs : runs? e.children with
  | none =>
    have empty : actionTypes e = [] := by simpa [runs?, actionTypes] using runs
    rw [empty] at oneType
    exact absurd (oneType rfl) (by decide)
  | some c =>
    rw [runs] at conf
    obtain ⟨filled, _, conf⟩ := conf
    rw [conf]
    rfl

/-- Every element with a shape is known to the builder. -/
theorem reads_of_shape {shape : Shape} (known : Shape.ofTag? e.name = some shape) (notPlain : plainNode? e = none) :
    e.name = Tag.action ∨ e.name = Tag.globals ∨ isPassedOver e.name = true := by
  have listed : (Shape.ofTag? e.name).isSome = true := by rw [known]; rfl
  simp only [Shape.ofTag?, List.lookup_isSome_iff, List.mem_cons, List.not_mem_nil, or_false, beq_iff_eq] at listed
  have declares (n : Except Fault Node) (plain : plainNode? e = some n) : False := by
    rw [notPlain] at plain
    cases plain
  have passed (tag : e.name = Tag.parameters ∨ e.name = Tag.credentials ∨ e.name = Tag.slaInfo) :
      isPassedOver e.name = true := by
    rcases tag with tag | tag | tag <;> simp [isPassedOver, tag]
  obtain ⟨p, rfl | rfl | rfl | rfl | rfl | rfl | rfl | rfl | rfl | rfl | rfl, tag⟩ := listed
  · exact (declares (startNode e) (by rw [plainNode?, tag]; rfl)).elim
  · exact (declares (finishNode e) (by rw [plainNode?, tag]; rfl)).elim
  · exact (declares (killNode e) (by rw [plainNode?, tag]; rfl)).elim
  · exact (declares (forkNode e) (by rw [plainNode?, tag]; rfl)).elim
  · exact (declares (joinNode e) (by rw [plainNode?, tag]; rfl)).elim
  · exact (declares (decisionNode e) (by rw [plainNode?, tag]; rfl)).elim
  · exact .inl tag
  · exact .inr (.inl tag)
  · exact .inr (.inr (passed (.inl tag)))
  · exact .inr (.inr (passed (.inr (.inl tag))))
  · exact .inr (.inr (passed (.inr (.inr tag))))

theorem noFormal_buildElement {shape : Shape} (known : Shape.ofTag? e.name = some shape) (fits : shape.Fits e) :
    NoFormal (buildElement b s e).result := by
  rw [buildElement_eq]
  split
  · rename_i n plain
    exact noFormal_addNode s (noFormal_plain (plain_of_plainNode? plain) known fits)
  · rename_i notPlain
    split
    · rename_i tag
      rw [tag] at known
      cases known
      exact (noFormal_actionNode fits).andThen fun t n _ => noFormal_addNode t (.ok n)
    · split
      · exact noFormal_stepOf (noFormal_applyGlobals b s e)
      · split
        · exact .ok ()
        · rename_i notAction notGlobals notPassed
          exact absurd (reads_of_shape known notPlain) (by simp [notAction, notGlobals, notPassed])

theorem noFormal_buildElements {elements : List Element}
    (all : ∀ e ∈ elements, ∃ shape, Shape.ofTag? e.name = some shape ∧ shape.Fits e) :
    NoFormal (buildElements b s elements).result := by
  induction elements generalizing s with
  | nil => exact .ok ()
  | cons e rest ih =>
    obtain ⟨⟨shape, known, fits⟩, others⟩ := List.forall_mem_cons.mp all
    exact (noFormal_buildElement known fits).andThen fun t _ _ => ih others

theorem noFormal_inheritedGlobals (conf : Dict String) : NoFormal (inheritedGlobals conf) := by
  unfold inheritedGlobals
  split
  · exact .ok none
  · exact (noFormal_decode _).map

/-- Where a definition has one start, a build that succeeds has a start node. -/
theorem Builds.starts {t : BuildState} {root : Element} (builds : Builds b s root.children t)
    (one : (root.childrenNamed Tag.start).length = 1) : t.graph.start?.isSome = true := by
  obtain ⟨e, member⟩ := List.exists_mem_of_length_pos (Nat.lt_of_lt_of_eq Nat.one_pos one.symm)
  obtain ⟨member, tag⟩ := List.mem_filter.mp member
  have tag : e.name = Tag.start := by simpa using tag
  obtain ⟨n, declared, inGraph⟩ := builds.has_node member (n := startNode e) (by simp [plainNode?, tag])
  obtain ⟨target, _, rfl⟩ := Except.map_eq_ok declared
  rw [Graph.start?, List.find?_isSome]
  exact ⟨_, List.mem_reverse.mpr inGraph, rfl⟩

theorem noFormal_build {root : Element} (conforms : Conforms root) (conf : Dict String) :
    NoFormal (build b root conf).result := by
  obtain ⟨name, named⟩ := requireAttribute_of_has conforms.named
  have inherited := noFormal_inheritedGlobals conf
  unfold build
  rw [named]
  dsimp only
  split
  · rename_i refused
    exact .error (inherited _ refused)
  · rename_i globals _
    have elements := noFormal_buildElements (b := b) (s := ⟨.empty name, conf, globals, false⟩) conforms.children
    split
    · rename_i refused
      exact .error (elements _ refused)
    · rename_i built
      have builds : Builds b ⟨.empty name, conf, globals, false⟩ root.children
          (buildElements b ⟨.empty name, conf, globals, false⟩ root.children).state :=
        builds_of_buildElements (by rw [Attempt.succeed, ← built])
      rw [if_pos (builds.starts conforms.oneStart)]
      exact .ok _

/-- A definition that the schema accepts is never refused by the builder for its form. -/
theorem build_of_validateSchema {definition : String} (accepted : validateSchema definition = .ok ()) :
    ∃ root, Markup.parse definition = .ok root ∧
      ∀ (b : Builder) (conf : Dict String) (fault : Fault), (build b root conf).result = .error fault →
        fault.code? ≠ some .schemaViolation ∧ fault.code? ≠ some .unknownElement := by
  obtain ⟨root, parsed, conforms⟩ := (validateSchema_ok_iff definition).mp accepted
  refine ⟨root, parsed, fun b conf fault refused => ?_⟩
  exact not_or.mp (noFormal_build conforms conf fault refused)

/-- A workflow with an action that lacks an end point. -/
def unsupplied : String :=
  "<workflow-app name='w'><start to='x'/><action name='x'><shell/><ok to='y'/><error to='y'/></action></workflow-app>"

theorem build_of_validateSchema_unsupplied : validateSchema unsupplied = .ok () ∧
    ∃ root, Markup.parse unsupplied = .ok root ∧ ∀ fault,
      (build ⟨⟨.withBuiltins [], {}⟩, none⟩ root .empty).result = .error fault →
        fault.code? ≠ some .schemaViolation ∧ fault.code? ≠ some .unknownElement := by
  have accepted : validateSchema unsupplied = .ok () := by
    have passes : (validateSchema unsupplied).isOk = true := by decide +kernel
    cases result : validateSchema unsupplied with
    | ok _ => rfl
    | error fault => rw [result] at passes; cases passes
  obtain ⟨root, parsed, built⟩ := build_of_validateSchema accepted
  exact ⟨accepted, root, parsed, built _ _⟩

end Definition
end WorkflowCompiler
