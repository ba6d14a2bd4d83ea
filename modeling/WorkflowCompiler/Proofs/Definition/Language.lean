import WorkflowCompiler.Proofs.Definition.Schema
import WorkflowCompiler.Proofs.Markup.RoundTrip

/-!
The language of definitions, element by element (`Legal`, `LegalDefinition`), and the schema: a text that can be read is accepted
exactly if its tree is a definition of the language, and else refused as a violation of the schema (`validateSchema_exact`).
-/
namespace WorkflowCompiler.Definition
open Markup (Element)

/-- Exactly one child of a name. -/
def HasOne (e : Element) (tag : String) : Prop := ∃ c, e.childrenNamed tag = [c]

/-- At most one child of a name. -/
def HasAtMostOne (e : Element) (tag : String) : Prop := (e.childrenNamed tag).length ≤ 1

/-- Exactly one child of a name, which leads to a node. -/
def LeadsOn (e : Element) (tag : String) : Prop := ∃ c, e.childrenNamed tag = [c] ∧ HasAttribute c Key.target

/-- Every property has a name, and at most one value. -/
def LegalProperties (e : Element) : Prop :=
  ∀ p ∈ e.childrenNamed Tag.property, HasOne p Tag.propertyName ∧ HasAtMostOne p Tag.propertyValue

/-- The branches of a decision: all lead to a node, and one is taken when no other is. -/
structure LegalSwitch (e : Element) : Prop where
  otherwise : HasOne e Tag.switchDefault
  targets : ∀ c ∈ e.children, c.name = Tag.switchCase ∨ c.name = Tag.switchDefault → HasAttribute c Key.target

/-- The elements that a definition may hold. -/
inductive Legal (e : Element) : Prop
  | start (tag : e.name = Tag.start) (target : HasAttribute e Key.target)
  | finish (tag : e.name = Tag.finish) (named : HasAttribute e Key.name)
  | kill (tag : e.name = Tag.kill) (named : HasAttribute e Key.name) (message : HasAtMostOne e Tag.message)
  | fork (tag : e.name = Tag.fork) (named : HasAttribute e Key.name) (paths : e.childrenNamed Tag.forkPath ≠ [])
      (starts : ∀ p ∈ e.childrenNamed Tag.forkPath, HasAttribute p Key.start)
  | join (tag : e.name = Tag.join) (named : HasAttribute e Key.name) (target : HasAttribute e Key.target)
  | decision (tag : e.name = Tag.decision) (named : HasAttribute e Key.name)
      (branches : ∃ switch, e.childrenNamed Tag.switch = [switch] ∧ LegalSwitch switch)
  | action (tag : e.name = Tag.action) (named : HasAttribute e Key.name) (ok : LeadsOn e Tag.ok) (error : LeadsOn e Tag.error)
      (type : ∃ type, e.children.filter (fun c => c.name ∉ [Tag.ok, Tag.error, Tag.slaInfo, Tag.credentials]) = [type])
  | globals (tag : e.name = Tag.globals) (nameNode : HasAtMostOne e Tag.nameNode) (jobTracker : HasAtMostOne e Tag.jobTracker)
      (configuration : HasAtMostOne e Tag.configuration) (properties : ∀ c ∈ e.childrenNamed Tag.configuration, LegalProperties c)
  | parameters (tag : e.name = Tag.parameters) (properties : LegalProperties e)
  | credentials (tag : e.name = Tag.credentials)
  | slaInfo (tag : e.name = Tag.slaInfo)

/-- The definitions of the language. -/
structure LegalDefinition (root : Element) : Prop where
  tag : root.name = Tag.root
  named : HasAttribute root Key.name
  start : HasOne root Tag.start
  children : ∀ e ∈ root.children, Legal e

variable {e root : Element} {definition : String}

theorem mem_childrenNamed {c : Element} {tag : String} : c ∈ e.childrenNamed tag ↔ c ∈ e.children ∧ c.name = tag := by
  simp [Element.childrenNamed]

/-! ### Shapes in the words of the language -/

theorem fits_any : Shape.any.Fits e ↔ True := by rw [Shape.Fits]

theorem fits_nil : Rules.nil.Fits e ↔ True := by rw [Rules.Fits]

/-- A rule that asks for one child of a name. -/
theorem fits_one {tag : String} {shape : Shape} {rest : Rules} : (Rules.cons tag 1 (some 1) shape rest).Fits e ↔
    (∃ c, e.childrenNamed tag = [c] ∧ shape.Fits c) ∧ rest.Fits e := by
  rw [Rules.Fits, ← and_assoc, ← and_assoc]
  refine and_congr_left fun _ => ?_
  constructor
  · rintro ⟨⟨all, least⟩, most⟩
    obtain ⟨c, only⟩ := List.length_eq_one_iff.mp (Nat.le_antisymm (most 1 rfl) least)
    exact ⟨c, only, all c (only ▸ List.mem_singleton_self c)⟩
  · rintro ⟨c, only, fits⟩
    simp [only, fits]

/-- A rule that asks for at most one child of a name. -/
theorem fits_atMostOne {tag : String} {shape : Shape} {rest : Rules} : (Rules.cons tag 0 (some 1) shape rest).Fits e ↔
    (∀ c ∈ e.childrenNamed tag, shape.Fits c) ∧ HasAtMostOne e tag ∧ rest.Fits e := by
  simp [Rules.Fits, HasAtMostOne]

/-- A rule that sets no limit to the children of a name. -/
theorem fits_many {tag : String} {least : Nat} {shape : Shape} {rest : Rules} : (Rules.cons tag least none shape rest).Fits e ↔
    (∀ c ∈ e.childrenNamed tag, shape.Fits c) ∧ least ≤ (e.childrenNamed tag).length ∧ rest.Fits e := by
  simp [Rules.Fits]

theorem fits_withRules {keys : List String} {rules : Rules} :
    (Shape.withRules keys rules).Fits e ↔ (∀ key ∈ keys, HasAttribute e key) ∧ rules.Fits e := by
  simp [Shape.withRules, Shape.Fits]

theorem fits_attributesOnly {keys : List String} : (Shape.attributesOnly keys).Fits e ↔ ∀ key ∈ keys, HasAttribute e key := by
  rw [Shape.attributesOnly, ← Shape.withRules, fits_withRules, fits_nil, and_true]

theorem fits_transition : Shape.transition.Fits e ↔ HasAttribute e Key.target := by
  rw [Shape.transition, fits_attributesOnly, List.forall_mem_singleton]

theorem fits_properties : Shape.properties.Fits e ↔ LegalProperties e := by
  simp [Shape.properties, Shape.property, fits_withRules, fits_many, fits_one, fits_atMostOne, fits_any, fits_nil, LegalProperties,
    HasOne]

theorem fits_switch : Shape.switch.Fits e ↔ LegalSwitch e := by
  simp only [Shape.switch, fits_withRules, fits_many, fits_one, fits_transition, fits_nil, List.not_mem_nil, false_implies,
    implies_true, Nat.zero_le, true_and, and_true]
  constructor
  · rintro ⟨cases, last, only, target⟩
    refine ⟨⟨last, only⟩, fun c member tag => ?_⟩
    rcases tag with tag | tag
    · exact cases c (mem_childrenNamed.mpr ⟨member, tag⟩)
    · have same : c ∈ [last] := only ▸ mem_childrenNamed.mpr ⟨member, tag⟩
      rwa [List.mem_singleton.mp same]
  · rintro ⟨⟨last, only⟩, targets⟩
    have member : last ∈ e.childrenNamed Tag.switchDefault := only ▸ List.mem_singleton_self last
    refine ⟨fun c member => ?_, last, only, ?_⟩
    · exact targets c (mem_childrenNamed.mp member).1 (.inl (mem_childrenNamed.mp member).2)
    · exact targets last (mem_childrenNamed.mp member).1 (.inr (mem_childrenNamed.mp member).2)

theorem fits_action : Shape.action.Fits e ↔ HasAttribute e Key.name ∧ LeadsOn e Tag.ok ∧ LeadsOn e Tag.error ∧
    ∃ type, e.children.filter (fun c => c.name ∉ [Tag.ok, Tag.error, Tag.slaInfo, Tag.credentials]) = [type] := by
  simp only [Shape.action, Shape.Fits, fits_one, fits_nil, fits_transition, List.forall_mem_singleton, List.length_eq_one_iff,
    and_true, forall_const, and_assoc]
  rfl

theorem fits_kill : (Shape.withRules [Key.name] (.cons Tag.message 0 (some 1) .any .nil)).Fits e ↔
    HasAttribute e Key.name ∧ HasAtMostOne e Tag.message := by
  simp [fits_withRules, fits_atMostOne, fits_any, fits_nil]

theorem fits_fork : (Shape.withRules [Key.name] (.cons Tag.forkPath 1 none (.attributesOnly [Key.start]) .nil)).Fits e ↔
    HasAttribute e Key.name ∧ e.childrenNamed Tag.forkPath ≠ [] ∧ ∀ p ∈ e.childrenNamed Tag.forkPath, HasAttribute p Key.start := by
  simp only [fits_withRules, fits_many, fits_attributesOnly, fits_nil, List.forall_mem_singleton, and_true]
  rw [and_comm (a := ∀ p ∈ _, _), Nat.one_le_iff_ne_zero, ne_eq, List.length_eq_zero_iff]

theorem fits_join : (Shape.attributesOnly [Key.name, Key.target]).Fits e ↔
    HasAttribute e Key.name ∧ HasAttribute e Key.target := by
  rw [fits_attributesOnly, List.forall_mem_cons, List.forall_mem_singleton]

theorem fits_decision : (Shape.withRules [Key.name] (.cons Tag.switch 1 (some 1) .switch .nil)).Fits e ↔
    HasAttribute e Key.name ∧ ∃ switch, e.childrenNamed Tag.switch = [switch] ∧ LegalSwitch switch := by
  simp only [fits_withRules, fits_one, fits_switch, fits_nil, List.forall_mem_singleton, and_true]

theorem fits_globals : (Shape.withRules [] (.cons Tag.nameNode 0 (some 1) .any (.cons Tag.jobTracker 0 (some 1) .any
      (.cons Tag.configuration 0 (some 1) .properties .nil)))).Fits e ↔
    HasAtMostOne e Tag.nameNode ∧ HasAtMostOne e Tag.jobTracker ∧ HasAtMostOne e Tag.configuration ∧
      ∀ c ∈ e.childrenNamed Tag.configuration, LegalProperties c := by
  simp only [fits_withRules, fits_atMostOne, fits_properties, fits_any, fits_nil, List.not_mem_nil, false_implies, implies_true,
    true_and, and_true]
  rw [and_comm (a := ∀ c ∈ _, _)]

/-! ### Elements and definitions -/

theorem legal_of_fits {shape : Shape} (known : Shape.ofTag? e.name = some shape) (fits : shape.Fits e) : Legal e := by
  have listed : (Shape.ofTag? e.name).isSome = true := by rw [known]; rfl
  simp only [Shape.ofTag?, List.lookup_isSome_iff, List.mem_cons, List.not_mem_nil, or_false, beq_iff_eq] at listed
  obtain ⟨p, rfl | rfl | rfl | rfl | rfl | rfl | rfl | rfl | rfl | rfl | rfl, tag⟩ := listed
  all_goals
    rw [tag] at known
    cases known
  · exact .start tag (fits_transition.mp fits)
  · exact .finish tag (fits_attributesOnly.mp fits _ (List.mem_singleton_self _))
  · obtain ⟨named, message⟩ := fits_kill.mp fits
    exact .kill tag named message
  · obtain ⟨named, paths, starts⟩ := fits_fork.mp fits
    exact .fork tag named paths starts
  · obtain ⟨named, target⟩ := fits_join.mp fits
    exact .join tag named target
  · obtain ⟨named, branches⟩ := fits_decision.mp fits
    exact .decision tag named branches
  · obtain ⟨named, ok, error, type⟩ := fits_action.mp fits
    exact .action tag named ok error type
  · obtain ⟨nameNode, jobTracker, configuration, properties⟩ := fits_globals.mp fits
    exact .globals tag nameNode jobTracker configuration properties
  · exact .parameters tag (fits_properties.mp fits)
  · exact .credentials tag
  · exact .slaInfo tag

theorem fits_of_legal (legal : Legal e) : ∃ shape, Shape.ofTag? e.name = some shape ∧ shape.Fits e := by
  cases legal with
  | start tag target => exact ⟨_, by rw [tag]; rfl, fits_transition.mpr target⟩
  | finish tag named => exact ⟨_, by rw [tag]; rfl, fits_attributesOnly.mpr (List.forall_mem_singleton.mpr named)⟩
  | kill tag named message => exact ⟨_, by rw [tag]; rfl, fits_kill.mpr ⟨named, message⟩⟩
  | fork tag named paths starts => exact ⟨_, by rw [tag]; rfl, fits_fork.mpr ⟨named, paths, starts⟩⟩
  | join tag named target => exact ⟨_, by rw [tag]; rfl, fits_join.mpr ⟨named, target⟩⟩
  | decision tag named branches => exact ⟨_, by rw [tag]; rfl, fits_decision.mpr ⟨named, branches⟩⟩
  | action tag named ok error type => exact ⟨_, by rw [tag]; rfl, fits_action.mpr ⟨named, ok, error, type⟩⟩
  | globals tag nameNode jobTracker configuration properties =>
    exact ⟨_, by rw [tag]; rfl, fits_globals.mpr ⟨nameNode, jobTracker, configuration, properties⟩⟩
  | parameters tag properties => exact ⟨_, by rw [tag]; rfl, fits_properties.mpr properties⟩
  | credentials tag => exact ⟨_, by rw [tag]; rfl, fits_attributesOnly.mpr (List.forall_mem_nil _)⟩
  | slaInfo tag => exact ⟨_, by rw [tag]; rfl, fits_attributesOnly.mpr (List.forall_mem_nil _)⟩

theorem conforms_iff_legalDefinition : Conforms root ↔ LegalDefinition root := by
  constructor
  · rintro ⟨tag, named, children, one⟩
    refine ⟨tag, named, List.length_eq_one_iff.mp one, fun e member => ?_⟩
    obtain ⟨shape, known, fits⟩ := children e member
    exact legal_of_fits known fits
  · rintro ⟨tag, named, start, children⟩
    exact ⟨tag, named, fun e member => fits_of_legal (children e member), List.length_eq_one_iff.mpr start⟩

theorem legalDefinition_iff : LegalDefinition root ↔ schemaIssues root = [] :=
  conforms_iff_legalDefinition.symm.trans (schemaIssues_eq_nil_iff root).symm

instance : Decidable (LegalDefinition root) := decidable_of_iff _ legalDefinition_iff.symm

/-- Of the texts that can be read, the schema accepts exactly the definitions of the language, and any other is refused as a
    violation of the schema. -/
theorem validateSchema_exact (parsed : Markup.parse definition = .ok root) :
    (validateSchema definition = .ok () ↔ LegalDefinition root) ∧
      (¬ LegalDefinition root → ∃ fault, validateSchema definition = .error fault ∧ fault.code? = some .schemaViolation) := by
  have accepts : validateSchema definition = .ok () ↔ LegalDefinition root := by
    rw [validateSchema_ok_iff, ← conforms_iff_legalDefinition, parsed]
    constructor
    · rintro ⟨_, ⟨⟩, conforms⟩
      exact conforms
    · intro conforms
      exact ⟨root, rfl, conforms⟩
  refine ⟨accepts, fun foreign => ?_⟩
  have refused := (not_congr accepts).mpr foreign
  rw [validateSchema, parsed] at refused ⊢
  dsimp only [checkSchema] at refused ⊢
  split at refused
  · exact absurd rfl refused
  · exact ⟨_, rfl, rfl⟩

/-- An element with a name of its own. -/
def elementNamed (tag name : String) (children : List Element) : Element where
  name := tag
  attributes := [(Key.name, name)]
  children := children

/-- An element that leads to a node. -/
def elementTo (tag target : String) : Element where
  name := tag
  attributes := [(Key.target, target)]

/-- A definition with every kind of element, and with the given children of its action. -/
def everyKind (actionChildren : List Element) : Element :=
  elementNamed Tag.root "w"
    [{ name := Tag.parameters, children := [{ name := Tag.property, children := [.ofText Tag.propertyName "p"] }] },
      { name := Tag.globals, children := [.ofText Tag.nameNode "n", { name := Tag.configuration, children :=
        [{ name := Tag.property, children := [.ofText Tag.propertyName "q", .ofText Tag.propertyValue "v"] }] }] },
      elementTo Tag.start "c",
      elementNamed Tag.decision "c"
        [{ name := Tag.switch, children := [elementTo Tag.switchCase "f", elementTo Tag.switchDefault "y"] }],
      elementNamed Tag.fork "f"
        [{ name := Tag.forkPath, attributes := [(Key.start, "a")] }, { name := Tag.forkPath, attributes := [(Key.start, "j")] }],
      elementNamed Tag.action "a" actionChildren,
      { name := Tag.join, attributes := [(Key.name, "j"), (Key.target, "y")] },
      elementNamed Tag.kill "k" [.ofText Tag.message "m"], elementNamed Tag.finish "y" [], { name := Tag.credentials },
      { name := Tag.slaInfo }]

/-- What an action must have. -/
def wholeAction : List Element :=
  [elementTo Tag.ok "j", { name := Tag.fileSystem }, { name := Tag.slaInfo }, elementTo Tag.error "k"]

/-- An action that does not say where an error leads. -/
def errorless : List Element := [elementTo Tag.ok "j", { name := Tag.fileSystem }]

theorem validateSchema_exact_everyKind :
    (∃ definition, Markup.parse definition = .ok (everyKind wholeAction) ∧ LegalDefinition (everyKind wholeAction) ∧
      validateSchema definition = .ok ()) ∧
    ∃ definition fault, Markup.parse definition = .ok (everyKind errorless) ∧ ¬ LegalDefinition (everyKind errorless) ∧
      validateSchema definition = .error fault ∧ fault.code? = some .schemaViolation := by
  constructor
  · obtain ⟨definition, _, parsed⟩ := Markup.exists_text (e := everyKind wholeAction) (by decide +kernel) (by decide +kernel)
      (by decide) (by decide)
    have legal : LegalDefinition (everyKind wholeAction) := by decide +kernel
    exact ⟨definition, parsed, legal, (validateSchema_exact parsed).1.mpr legal⟩
  · obtain ⟨definition, _, parsed⟩ := Markup.exists_text (e := everyKind errorless) (by decide +kernel) (by decide +kernel)
      (by decide) (by decide)
    have foreign : ¬ LegalDefinition (everyKind errorless) := by decide +kernel
    obtain ⟨fault, refused, code⟩ := (validateSchema_exact parsed).2 foreign
    exact ⟨definition, fault, parsed, foreign, refused, code⟩

end WorkflowCompiler.Definition
