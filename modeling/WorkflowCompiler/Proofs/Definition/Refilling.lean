import WorkflowCompiler.Proofs.Definition.Sections

/-!
Defaults that give every element the same. What an element inherits depends on the end points together with those of
the site, on the job files in the order in which they first appear, and on the configuration, where none counts as an
empty one (`SameSupply`, `inherit_congr`). A global section that is filled in from the defaults that it has set itself
sets defaults that give the same once more (`sectionDefaults_again`), although they need not be equal: the end points of
the site are in them now, and a configuration is there in any case.
-/
namespace WorkflowCompiler

theorem Dict.overlay_self {α : Type} (d : Dict α) : d.overlay d = d := by
  refine ext_get? ?_ fun key => ?_
  · rw [keys_overlay, List.filter_eq_nil_iff.mpr (by simp), List.append_nil]
  · rw [get?_overlay, Option.or_self]

namespace Definition
open Markup (Element)

/-- Defaults that give every element the same at a site. -/
structure SameSupply (i : Inheritance) (globals other : Option GlobalDefaults) : Prop where
  nameNode : (globals.bind GlobalDefaults.nameNode).or i.endpoints.nameNode =
    (other.bind GlobalDefaults.nameNode).or i.endpoints.nameNode
  jobTracker : (globals.bind GlobalDefaults.jobTracker).or i.endpoints.jobTracker =
    (other.bind GlobalDefaults.jobTracker).or i.endpoints.jobTracker
  jobXmls : ((globals.map GlobalDefaults.jobXmls).getD []).eraseDups = ((other.map GlobalDefaults.jobXmls).getD []).eraseDups
  configuration : (globals.bind GlobalDefaults.configuration).getD .empty = (other.bind GlobalDefaults.configuration).getD .empty

variable {i : Inheritance} {globals other inherited : Option GlobalDefaults} {e : Element} {g h : GlobalDefaults}
  {own files : List String} {d : Dict String}

theorem SameSupply.refl (i : Inheritance) (globals : Option GlobalDefaults) : SameSupply i globals globals := ⟨rfl, rfl, rfl, rfl⟩

/-! ### What inherits -/

/-- An absent configuration counts as an empty one. -/
theorem lowerLayers_eq (globals : Option GlobalDefaults) (layer : Option (Dict String)) :
    lowerLayers globals layer = (layer.getD .empty).overlay ((globals.bind GlobalDefaults.configuration).getD .empty) := by
  rw [lowerLayers]
  cases globals.bind GlobalDefaults.configuration with
  | none => exact Dict.empty_overlay _
  | some d => exact congrArg (fun lower => Dict.overlay lower d) (Dict.empty_overlay _)

theorem SameSupply.lowerLayers (same : SameSupply i globals other) (layer : Option (Dict String)) :
    Definition.lowerLayers globals layer = Definition.lowerLayers other layer := by
  rw [lowerLayers_eq, lowerLayers_eq, same.configuration]

/-- Such defaults make no difference to what inherits. -/
theorem inherit_congr (same : SameSupply i globals other) (e : Element) (layer : Option (Dict String)) (node : Option String) :
    inherit i e globals layer node = inherit i e other layer node := by
  have endpoints (e : Element) : resolveEndpoints i e globals node = resolveEndpoints i e other node := by
    have nameNode (e : Element) (exempt : Bool) : fillEndpoint e Tag.nameNode (globals.bind GlobalDefaults.nameNode)
        i.endpoints.nameNode exempt node =
          fillEndpoint e Tag.nameNode (other.bind GlobalDefaults.nameNode) i.endpoints.nameNode exempt node := by
      rw [fillEndpoint, fillEndpoint, same.nameNode]
    have jobTracker (e : Element) (exempt : Bool) : fillEndpoint e Tag.jobTracker (globals.bind GlobalDefaults.jobTracker)
        i.endpoints.jobTracker exempt node =
          fillEndpoint e Tag.jobTracker (other.bind GlobalDefaults.jobTracker) i.endpoints.jobTracker exempt node := by
      rw [fillEndpoint, fillEndpoint, same.jobTracker]
    simp only [resolveEndpoints, nameNode, jobTracker]
  have configuration (e : Element) : resolveConfiguration e globals layer = resolveConfiguration e other layer := by
    rw [resolveConfiguration, resolveConfiguration, appendJobXmls_eq, appendJobXmls_eq, freshFiles_congr _ same.jobXmls]
    simp only [mergeConfiguration, same.lowerLayers]
  simp only [inherit, endpoints, configuration]

/-! ### A section filled in from what it has set -/

theorem Named.empty : Named .empty := List.forall_mem_nil _

theorem Named.put (named : Named d) {key : String} (visible : key ≠ "") (value : String) : Named (d.put key value) := by
  intro e member
  rcases mem_putEntry member with rfl | earlier
  · exact visible
  · exact named e earlier

theorem readProperties_named {owner : String} {before after : Dict String} {properties : List Element} (named : Named before)
    (read : readProperties owner before properties = .ok after) : Named after := by
  induction properties generalizing before with
  | nil =>
    cases read
    exact named
  | cons p rest ih =>
    unfold readProperties at read
    split at read
    · cases read
    · split at read
      · cases read
      · rename_i visible
        split at read
        · exact ih named read
        · rename_i value _
          exact ih (named.put visible value) read

theorem ownConfiguration_named (read : ownConfiguration e = .ok d) : Named d := by
  unfold ownConfiguration at read
  split at read
  · cases read
    exact .empty
  · exact readProperties_named .empty read

/-- The properties of a section have names, those it was filled in with as well. -/
theorem sectionDefaults_named (set : sectionDefaults i inherited e = .ok g) : Named (g.configuration.getD .empty) := by
  unfold sectionDefaults at set
  split at set
  · exact ownConfiguration_named (ofSection_eq_ok set).2.2.2
  · dsimp only at set
    split at set
    · cases set
    · exact ownConfiguration_named (ofSection_eq_ok set).2.2.2

theorem fillEndpoint_exempt (e : Element) (field : String) (inherited siteDefault : Option String) (node : Option String) :
    ∃ filled, fillEndpoint e field inherited siteDefault true node = .ok filled := by
  unfold fillEndpoint
  split
  · exact ⟨_, rfl⟩
  · split
    · exact ⟨_, rfl⟩
    · exact ⟨e, rfl⟩

/-- A section inherits whatever there is, if its own configuration can be read. -/
theorem inherit_section (tag : e.name = Tag.globals) (own : ownConfiguration e = .ok d) (i : Inheritance)
    (globals : Option GlobalDefaults) : ∃ filled, inherit i e globals none none = .succeed filled () := by
  have exempt : isExempt e.name = true := by rw [tag]; rfl
  obtain ⟨named, naming⟩ := fillEndpoint_exempt e Tag.nameNode (globals.bind GlobalDefaults.nameNode) i.endpoints.nameNode none
  obtain ⟨mid, tracking⟩ := fillEndpoint_exempt named Tag.jobTracker (globals.bind GlobalDefaults.jobTracker)
    i.endpoints.jobTracker none
  have endpoints : resolveEndpoints i e globals none = .succeed mid () := by
    refine resolveEndpoints_eq_succeed_iff.mpr ⟨named, by rw [exempt, naming], ?_⟩
    rw [if_neg (by rw [tag]; decide), exempt, tracking]
  have grown := (grows_of_resolveEndpoints endpoints).trans
    (grows_appendJobXmls mid ((globals.map GlobalDefaults.jobXmls).getD []))
  rw [ownConfiguration, ← grown.child?_configuration] at own
  obtain ⟨filled, merged⟩ : ∃ filled, mergeConfiguration (appendJobXmls mid ((globals.map GlobalDefaults.jobXmls).getD []))
      globals none = .ok filled := ⟨_, mergeConfiguration_eq_ok_iff.mpr ⟨d, own, rfl⟩⟩
  refine ⟨filled, inherit_eq_succeed_iff.mpr ⟨.inr tag, mid, ?_, ?_⟩⟩
  · rwa [if_pos (by rw [tag]; rfl)]
  · rwa [if_pos (by rw [tag]; rfl)]

/-- What a section sets gives the same when it is filled in from that. -/
theorem SetsOver.again (sets : SetsOver i inherited e g) (again : SetsOver i (some g) e h) : SameSupply i (some g) (some h) where
  nameNode := by
    refine (again.nameNode.trans ?_).symm
    rw [Option.bind_some, sets.nameNode, ← Option.or_assoc, Option.or_self]
  jobTracker := by
    refine (again.jobTracker.trans ?_).symm
    rw [Option.bind_some, sets.jobTracker, ← Option.or_assoc, Option.or_self]
  jobXmls := by
    have twice (own files : List String) : (own ++ (own ++ files)).eraseDups = (own ++ files).eraseDups := by
      have none : own.removeAll own = [] := by
        rw [List.removeAll, List.filter_eq_nil_iff]
        exact fun file member => by simp [member]
      have same : (own ++ files).removeAll own = files.removeAll own := by
        rw [List.removeAll, List.filter_append, ← List.removeAll, ← List.removeAll, none, List.nil_append]
      rw [List.eraseDups_append, same, ← List.eraseDups_append]
    refine Eq.trans ?_ again.jobXmls.symm
    rw [Option.map_some, Option.getD_some, sets.jobXmls, eraseDups_append_congr _ sets.jobXmls, twice]
  configuration := by
    obtain ⟨own, read, same⟩ := sets.configuration
    obtain ⟨own', read', same'⟩ := again.configuration
    rw [read] at read'
    cases read'
    rw [Option.bind_some, Option.bind_some, same', Option.bind_some, same, Dict.overlay_assoc, Dict.overlay_self]

/-- A section can be filled in from what it has set, and what it sets then gives the same. -/
theorem sectionDefaults_again (tag : e.name = Tag.globals) (set : sectionDefaults i inherited e = .ok g) :
    ∃ h, sectionDefaults i (some g) e = .ok h ∧ SameSupply i (some g) (some h) := by
  have sets := setsOver_of_sectionDefaults tag set
  obtain ⟨own, read, same⟩ := sets.configuration
  obtain ⟨filled, done⟩ := inherit_section tag read i (some g)
  obtain ⟨own', read', written⟩ := (inherits_of_inherit done).configuration (by rw [tag]; rfl)
  rw [read] at read'
  cases read'
  have merged : Dict.stack (configurationLayers none (some g) own) = g.configuration.getD .empty := by
    rw [Dict.stack, configurationLayers]
    simp only [List.foldl_cons, List.foldl_nil, Option.getD_none, Dict.empty_overlay]
    rw [Option.bind_some, same, Dict.overlay_assoc, Dict.overlay_self]
  rw [merged] at written
  obtain ⟨h, found⟩ : ∃ h, GlobalDefaults.ofSection filled = .ok h := by
    unfold GlobalDefaults.ofSection
    dsimp only
    rw [written]
    dsimp only
    rw [readConfiguration_of_named (sectionDefaults_named set)]
    exact ⟨_, rfl⟩
  have again : sectionDefaults i (some g) e = .ok h := by
    simp only [sectionDefaults, done, Attempt.succeed]
    exact found
  exact ⟨h, again, sets.again (setsOver_of_sectionDefaults tag again)⟩

end Definition
end WorkflowCompiler
