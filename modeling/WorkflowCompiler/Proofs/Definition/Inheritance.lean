import WorkflowCompiler.Definition.Inheritance
import WorkflowCompiler.Proofs.Definition.Build
import WorkflowCompiler.Proofs.Dict

/-!
What an element inherits when that succeeds. It keeps its name, attributes, text
and children, but for its configuration; end points and job files come after its
children (`Grows`), and its configuration becomes all layers, one over the other
(`Inherits`).
-/
namespace WorkflowCompiler

namespace Definition
open Markup (Element)

/-- The children that an element may inherit besides its configuration. -/
def inheritedFields : List String := [Tag.nameNode, Tag.jobTracker, Tag.jobXml]

/-- An element with texts added that it inherits. -/
inductive Grows (e : Element) : Element → Prop
  | same : Grows e e
  | append {grown : Element} (grows : Grows e grown) {field : String} (inherited : field ∈ inheritedFields) (value : String) :
      Grows e (grown.append (Element.ofText field value))

namespace Grows
variable {e grown last : Element}

theorem trans (first : Grows e grown) (second : Grows grown last) : Grows e last := by
  induction second with
  | same => exact first
  | append _ inherited value ih => exact ih.append inherited value

theorem name (grows : Grows e grown) : grown.name = e.name := by
  induction grows with
  | same => rfl
  | append _ _ _ ih => exact ih

theorem attributes (grows : Grows e grown) : grown.attributes = e.attributes := by
  induction grows with
  | same => rfl
  | append _ _ _ ih => exact ih

theorem text (grows : Grows e grown) : grown.text = e.text := by
  induction grows with
  | same => rfl
  | append _ _ _ ih => exact ih

theorem children (grows : Grows e grown) :
    ∀ c ∈ grown.children, c ∈ e.children ∨ ∃ field ∈ inheritedFields, ∃ value, c = Element.ofText field value := by
  induction grows with
  | same => exact fun c member => .inl member
  | @append grown _ field inherited value ih =>
    intro c member
    rcases List.mem_append.mp member with earlier | last
    · exact ih c earlier
    · exact .inr ⟨field, inherited, value, List.mem_singleton.mp last⟩

/-- What is inherited as a text is no configuration. -/
theorem child?_configuration (grows : Grows e grown) : grown.child? Tag.configuration = e.child? Tag.configuration := by
  induction grows with
  | same => rfl
  | @append grown _ field inherited value ih =>
    have other : ((Element.ofText field value).name == Tag.configuration) = false := by
      simp only [inheritedFields, List.mem_cons, List.not_mem_nil, or_false] at inherited
      rcases inherited with rfl | rfl | rfl <;> rfl
    rw [Element.child?_append, other, ih]
    simp

end Grows

variable {i : Inheritance} {e filled : Element} {globals : Option GlobalDefaults} {layer : Option (Dict String)}
  {node : Option String}

theorem fillEndpoint_eq_ok {field : String} (inherited : field ∈ inheritedFields) {value siteDefault : Option String}
    {exempt : Bool} (done : fillEndpoint e field value siteDefault exempt node = .ok filled) :
    Grows e filled := by
  unfold fillEndpoint at done
  split at done
  · cases done
    exact .same
  · split at done
    · rename_i endpoint _
      cases done
      exact Grows.same.append inherited endpoint
    · split at done
      · cases done
        exact .same
      · cases done

theorem grows_appendJobXmls (e : Element) (files : List String) : Grows e (appendJobXmls e files) := by
  induction files generalizing e with
  | nil => exact .same
  | cons file rest ih =>
    rw [appendJobXmls]
    split
    · exact ih e
    · exact (Grows.same.append (by simp [inheritedFields]) file).trans (ih _)

theorem andThen_unit_iff {σ : Type} {a : Attempt σ Unit} {next : σ → Unit → Attempt σ Unit} {t : σ} :
    a.andThen next = .succeed t () ↔ ∃ s, a = .succeed s () ∧ next s () = .succeed t () := by
  constructor
  · intro done
    obtain ⟨s, _, first, second⟩ := Attempt.andThen_eq_succeed done
    exact ⟨s, first, second⟩
  · rintro ⟨s, rfl, second⟩
    exact second

/-- A step that is only taken in some cases. -/
theorem ite_eq_succeed_iff {σ : Type} {p : Prop} [Decidable p] {a : Attempt σ Unit} {s t : σ} :
    (if p then a else .succeed s ()) = .succeed t () ↔ if p then a = .succeed t () else t = s := by
  split
  · rfl
  · simp [Attempt.succeed, eq_comm]

theorem stepOf_eq_succeed_iff {σ : Type} {s t : σ} {result : Except Fault σ} :
    stepOf s result = .succeed t () ↔ result = .ok t := by
  cases result <;> simp [stepOf, Attempt.succeed, Attempt.fail]

/-- The name node is filled in first, then the job tracker, unless the element works on files only. -/
theorem resolveEndpoints_eq_succeed_iff : resolveEndpoints i e globals node = .succeed filled () ↔ ∃ mid,
    fillEndpoint e Tag.nameNode (globals.bind GlobalDefaults.nameNode) i.endpoints.nameNode (isExempt e.name) node = .ok mid ∧
      if e.name = Tag.fileSystem then filled = mid
      else fillEndpoint mid Tag.jobTracker (globals.bind GlobalDefaults.jobTracker) i.endpoints.jobTracker (isExempt e.name)
        node = .ok filled := by
  unfold resolveEndpoints
  simp only [andThen_unit_iff, stepOf_eq_succeed_iff]
  refine exists_congr fun mid => and_congr_right fun named => ?_
  rw [(fillEndpoint_eq_ok (by simp [inheritedFields]) named).name]
  split
  · simp [Attempt.succeed, eq_comm]
  · exact stepOf_eq_succeed_iff

theorem grows_of_resolveEndpoints (done : resolveEndpoints i e globals node = .succeed filled ()) : Grows e filled := by
  obtain ⟨mid, first, second⟩ := resolveEndpoints_eq_succeed_iff.mp done
  have named := fillEndpoint_eq_ok (by simp [inheritedFields]) first
  split at second
  · exact second ▸ named
  · exact named.trans (fillEndpoint_eq_ok (by simp [inheritedFields]) second)

/-! ### Configurations -/

/-- The properties that an element has itself. -/
def ownConfiguration (e : Element) : Except Fault (Dict String) :=
  match e.child? Tag.configuration with
  | none => .ok .empty
  | some own => readConfiguration own

/-- The layers of the configuration of an element, the lowest first. -/
def configurationLayers (layer : Option (Dict String)) (globals : Option GlobalDefaults) (own : Dict String) :
    List (Dict String) :=
  [layer.getD .empty, (globals.bind GlobalDefaults.configuration).getD .empty, own]

theorem stack_configurationLayers (layer : Option (Dict String)) (globals : Option GlobalDefaults) (own : Dict String) :
    Dict.stack (configurationLayers layer globals own) = (lowerLayers globals layer).overlay own := by
  rw [configurationLayers, lowerLayers]
  cases globals.bind GlobalDefaults.configuration <;> rfl

theorem find?_replaceFirst {name : String} {new c : Element} (named : new.name = name) {children : List Element}
    (present : children.find? (fun c => c.name == name) = some c) :
    (replaceFirst name new children).find? (fun c => c.name == name) = some new := by
  induction children with
  | nil => cases present
  | cons d rest ih =>
    rw [replaceFirst]
    split
    · rw [List.find?_cons_of_pos (by simpa using named)]
    · rename_i other
      rw [List.find?_cons_of_neg (by simpa using other)] at present ⊢
      exact ih present

theorem mem_replaceFirst {name : String} {new c : Element} {children : List Element}
    (member : c ∈ replaceFirst name new children) : c ∈ children ∨ c = new := by
  induction children with
  | nil => cases member
  | cons d rest ih =>
    rw [replaceFirst] at member
    split at member
    · rcases List.mem_cons.mp member with rfl | later
      · exact .inr rfl
      · exact .inl (List.mem_cons_of_mem _ later)
    · rcases List.mem_cons.mp member with rfl | later
      · exact .inl List.mem_cons_self
      · exact (ih later).imp_left (List.mem_cons_of_mem _)

/-- An element with a configuration in the place of its first one, or after its children where it has none. -/
def withConfiguration (e configuration : Element) : Element :=
  match e.child? Tag.configuration with
  | none => e.append configuration
  | some _ => { e with children := replaceFirst Tag.configuration configuration e.children }

section
variable {c new : Element}

@[simp] theorem withConfiguration_name : (withConfiguration e new).name = e.name := by
  unfold withConfiguration
  split <;> rfl

@[simp] theorem withConfiguration_attributes : (withConfiguration e new).attributes = e.attributes := by
  unfold withConfiguration
  split <;> rfl

@[simp] theorem withConfiguration_text : (withConfiguration e new).text = e.text := by
  unfold withConfiguration
  split <;> rfl

theorem child?_withConfiguration (named : new.name = Tag.configuration) :
    (withConfiguration e new).child? Tag.configuration = some new := by
  unfold withConfiguration
  split
  · rename_i absent
    simp [Element.child?_append, absent, named]
  · rename_i present
    exact find?_replaceFirst named present

theorem mem_withConfiguration (member : c ∈ (withConfiguration e new).children) : c ∈ e.children ∨ c = new := by
  unfold withConfiguration at member
  split at member
  · exact (List.mem_append.mp member).imp_right List.mem_singleton.mp
  · exact mem_replaceFirst member

end

/-- The configuration of an element over the layers below it. -/
def mergedElement (globals : Option GlobalDefaults) (layer : Option (Dict String)) (own : Dict String) : Element :=
  configurationElement (.stack (configurationLayers layer globals own))

/-- A merge reads the properties of an element and writes all layers in the place of these. -/
theorem mergeConfiguration_eq (e : Element) (globals : Option GlobalDefaults) (layer : Option (Dict String)) :
    mergeConfiguration e globals layer =
      (ownConfiguration e).map fun own => withConfiguration e (mergedElement globals layer own) := by
  unfold mergeConfiguration ownConfiguration withConfiguration mergedElement
  simp only [stack_configurationLayers]
  cases e.child? Tag.configuration with
  | none => rfl
  | some first =>
    dsimp only
    cases readConfiguration first <;> rfl

theorem mergeConfiguration_eq_ok_iff : mergeConfiguration e globals layer = .ok filled ↔
    ∃ own, ownConfiguration e = .ok own ∧ filled = withConfiguration e (mergedElement globals layer own) := by
  rw [mergeConfiguration_eq]
  cases ownConfiguration e <;> simp [Except.map, eq_comm]

/-! ### Elements that inherit -/

/-- An element of a type that is known has its end points first, then its job files, and its configuration last. -/
theorem inherit_eq_succeed_iff : inherit i e globals layer node = .succeed filled () ↔
    (i.registry.supports e.name = true ∨ e.name = Tag.globals) ∧ ∃ mid,
      (if takesEndpoints e.name (i.registry.get? e.name) then resolveEndpoints i e globals node = .succeed mid () else mid = e) ∧
        if takesConfiguration e.name (i.registry.get? e.name) then
          mergeConfiguration (appendJobXmls mid ((globals.map GlobalDefaults.jobXmls).getD [])) globals layer = .ok filled
        else filled = mid := by
  have known : ¬ ((i.registry.get? e.name).isNone && e.name != Tag.globals) = true ↔
      i.registry.supports e.name = true ∨ e.name = Tag.globals := by
    rw [Registry.supports]
    cases i.registry.get? e.name <;> simp
  have same {mid : Element} (endpoints : if takesEndpoints e.name (i.registry.get? e.name) then
      resolveEndpoints i e globals node = .succeed mid () else mid = e) : mid.name = e.name := by
    split at endpoints
    · exact (grows_of_resolveEndpoints endpoints).name
    · rw [endpoints]
  unfold inherit
  dsimp only
  split
  · rename_i unknown
    exact iff_of_false nofun fun supported => known.mpr supported.1 unknown
  · rename_i supported
    simp only [andThen_unit_iff, ite_eq_succeed_iff, known.mp supported, true_and]
    refine exists_congr fun mid => and_congr_right fun endpoints => ?_
    rw [same endpoints, resolveConfiguration, stepOf_eq_succeed_iff]

/-- What an element is when it has inherited. -/
structure Inherits (i : Inheritance) (globals : Option GlobalDefaults) (layer : Option (Dict String)) (e filled : Element) :
    Prop where
  name : filled.name = e.name
  attributes : filled.attributes = e.attributes
  text : filled.text = e.text
  children : ∀ c ∈ filled.children, c ∈ e.children ∨
    (∃ field ∈ inheritedFields, ∃ value, c = Element.ofText field value) ∨
    ∃ own, ownConfiguration e = .ok own ∧ c = configurationElement (.stack (configurationLayers layer globals own))
  configuration : takesConfiguration e.name (i.registry.get? e.name) = true → ∃ own, ownConfiguration e = .ok own ∧
    filled.child? Tag.configuration = some (configurationElement (.stack (configurationLayers layer globals own)))

theorem inherits_of_inherit (done : inherit i e globals layer node = .succeed filled ()) : Inherits i globals layer e filled := by
  obtain ⟨_, mid, endpoints, rest⟩ := inherit_eq_succeed_iff.mp done
  have grows : Grows e mid := by
    split at endpoints
    · exact grows_of_resolveEndpoints endpoints
    · exact endpoints ▸ .same
  split at rest
  · have grown := grows.trans (grows_appendJobXmls mid ((globals.map GlobalDefaults.jobXmls).getD []))
    obtain ⟨own, read, rfl⟩ := mergeConfiguration_eq_ok_iff.mp rest
    rw [ownConfiguration, grown.child?_configuration] at read
    refine ⟨withConfiguration_name.trans grown.name, withConfiguration_attributes.trans grown.attributes,
      withConfiguration_text.trans grown.text, fun c member => ?_, fun _ => ⟨own, read, child?_withConfiguration rfl⟩⟩
    rcases mem_withConfiguration member with earlier | rfl
    · exact (grown.children c earlier).imp_right .inl
    · exact .inr (.inr ⟨own, read, rfl⟩)
  · rename_i none
    subst rest
    exact ⟨grows.name, grows.attributes, grows.text, fun c member => (grows.children c member).imp_right .inl,
      fun contrary => absurd contrary none⟩

end Definition
end WorkflowCompiler
