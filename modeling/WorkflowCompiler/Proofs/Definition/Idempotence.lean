import WorkflowCompiler.Proofs.Definition.Additions

/-!
An element that has inherited takes nothing more from the same defaults (`inherit_again`). Its end points and job files
are found to be there. Its configuration is the pile of all layers, which is read back as it is if all its keys are
named, and the same layers below it change neither a value nor the order of the keys. Each step is shown to leave any
element alone that agrees with what the step made on the children that it looks at, since later steps add others.
-/
namespace WorkflowCompiler.Definition
open Markup (Element)

variable {i : Inheritance} {e mid filled last : Element} {globals : Option GlobalDefaults} {layer : Option (Dict String)}
  {node : Option String}

/-! ### End points -/

/-- An end point that was filled in, or could not be, stays as it is. -/
theorem fillEndpoint_again {field : String} {inherited siteDefault : Option String} {exempt : Bool}
    (done : fillEndpoint e field inherited siteDefault exempt node = .ok mid)
    (kept : last.childrenNamed field = mid.childrenNamed field) :
    fillEndpoint last field inherited siteDefault exempt node = .ok last := by
  have supplied : ¬ (exempt = false ∧ e.childrenNamed field = [] ∧ inherited.or siteDefault = none) := by
    intro wants
    rw [fillEndpoint_eq, if_pos wants] at done
    cases done
  have settled : last.childrenNamed field = [] → e.childrenNamed field = [] ∧ inherited.or siteDefault = none := by
    intro bare
    have own : (lacking e field (inherited.or siteDefault)).filter (fun c => c.name == field) =
        lacking e field (inherited.or siteDefault) :=
      List.filter_eq_self.mpr fun c member => by simpa using name_of_lacking member
    rw [kept, fillEndpoint_ok done, childrenNamed_extend_append, own, List.append_eq_nil_iff] at bare
    exact ⟨bare.1, lacking_eq_nil_iff.mp bare.2 bare.1⟩
  rw [fillEndpoint_eq, if_neg fun wants => supplied ⟨wants.1, settled wants.2.1⟩,
    lacking_eq_nil_iff.mpr fun bare => (settled bare).2, extend_nil]

theorem resolveEndpoints_again (done : resolveEndpoints i e globals node = .succeed mid ()) (type : last.name = e.name)
    (nameNode : last.childrenNamed Tag.nameNode = mid.childrenNamed Tag.nameNode)
    (jobTracker : last.childrenNamed Tag.jobTracker = mid.childrenNamed Tag.jobTracker) :
    resolveEndpoints i last globals node = .succeed last () := by
  obtain ⟨named, naming, rest⟩ := resolveEndpoints_eq_succeed_iff.mp done
  rw [resolveEndpoints_eq_succeed_iff, type]
  split at rest
  · rename_i onFiles
    subst rest
    exact ⟨last, fillEndpoint_again naming nameNode, if_pos onFiles ▸ rfl⟩
  · rename_i other
    have kept := nameNode.trans (childrenNamed_of_fillEndpoint rest (by decide))
    refine ⟨last, fillEndpoint_again naming kept, ?_⟩
    rw [if_neg other]
    exact fillEndpoint_again rest jobTracker

/-! ### Job files and configurations -/

/-- Job files that are all listed are not added. -/
theorem appendJobXmls_again {files : List String} (listed : ∀ file ∈ files, file ∈ jobFiles last) :
    appendJobXmls last files = last := by
  have none : files.filter (· ∉ jobFiles last) = [] :=
    List.filter_eq_nil_iff.mpr fun file member => by simpa using listed file member
  rw [appendJobXmls_eq, freshFiles, none, List.eraseDups_nil, List.map_nil, extend_nil]

theorem mem_jobFiles_appendJobXmls (e : Element) {files : List String} {file : String} (member : file ∈ files) :
    file ∈ jobFiles (appendJobXmls e files) := by
  rw [jobFiles_appendJobXmls, List.mem_append]
  by_cases present : file ∈ jobFiles e
  · exact .inl present
  · exact .inr (List.mem_eraseDups.mpr (List.mem_filter.mpr ⟨member, by simpa using present⟩))

theorem Named.overlay {lower upper : Dict String} (below : Named lower) (above : Named upper) : Named (lower.overlay upper) := by
  have visible {d : Dict String} : Named d ↔ "" ∉ d.keys := by
    rw [Named, Dict.keys, List.mem_map]
    constructor
    · rintro each ⟨e, member, blank⟩
      exact each e member blank
    · exact fun none e member blank => none ⟨e, member, blank⟩
  rw [visible] at below above ⊢
  rw [Dict.keys_overlay, List.mem_append, List.mem_filter]
  exact fun present => present.elim below fun upper => above upper.1

theorem replaceFirst_self {name : String} {c : Element} {children : List Element}
    (first : children.find? (fun c => c.name == name) = some c) : replaceFirst name c children = children := by
  induction children with
  | nil => rfl
  | cons d rest ih =>
    rw [replaceFirst]
    split
    · rename_i named
      rw [List.find?_cons_of_pos (by simpa using named)] at first
      rw [Option.some.inj first]
    · rename_i other
      rw [List.find?_cons_of_neg (by simpa using other)] at first
      rw [ih first]

theorem withConfiguration_self {configuration : Element} (present : e.child? Tag.configuration = some configuration) :
    withConfiguration e configuration = e := by
  rw [withConfiguration, present]
  dsimp only
  rw [replaceFirst_self present]
  cases e
  rfl

/-- A merged configuration is merged with the same layers to itself. -/
theorem mergeConfiguration_again (below : Named (lowerLayers globals layer))
    (done : mergeConfiguration e globals layer = .ok filled) : mergeConfiguration filled globals layer = .ok filled := by
  obtain ⟨own, read, rfl⟩ := mergeConfiguration_eq_ok_iff.mp done
  have written : (withConfiguration e (mergedElement globals layer own)).child? Tag.configuration =
      some (mergedElement globals layer own) := child?_withConfiguration rfl
  have settled : mergedElement globals layer ((lowerLayers globals layer).overlay own) = mergedElement globals layer own := by
    rw [mergedElement, mergedElement, stack_configurationLayers, stack_configurationLayers, ← Dict.overlay_assoc, Dict.overlay_self]
  refine mergeConfiguration_eq_ok_iff.mpr ⟨(lowerLayers globals layer).overlay own, ?_, ?_⟩
  · rw [ownConfiguration, written, mergedElement, stack_configurationLayers]
    exact readConfiguration_of_named (below.overlay (ownConfiguration_named read))
  · rw [settled, withConfiguration_self written]

/-! ### Elements that inherit -/

theorem lowerLayers_named (named : ∀ d, layer = some d → Named d)
    (namedGlobals : ∀ d, globals.bind GlobalDefaults.configuration = some d → Named d) : Named (lowerLayers globals layer) := by
  have filled {d : Option (Dict String)} (each : ∀ given, d = some given → Named given) : Named (d.getD .empty) := by
    cases d with
    | none => exact .empty
    | some given => exact each given rfl
  rw [lowerLayers_eq]
  exact (filled named).overlay (filled namedGlobals)

/-- Job files that were added are not added again. -/
theorem appendJobXmls_of_mergeConfiguration {files : List String}
    (done : mergeConfiguration (appendJobXmls e files) globals layer = .ok filled) : appendJobXmls filled files = filled := by
  refine appendJobXmls_again fun file member => ?_
  rw [jobFiles, childrenNamed_of_mergeConfiguration done (by decide)]
  exact mem_jobFiles_appendJobXmls e member

/-- What has inherited inherits nothing more. -/
theorem inherit_again (named : ∀ d, layer = some d → Named d)
    (namedGlobals : ∀ d, globals.bind GlobalDefaults.configuration = some d → Named d)
    (done : inherit i e globals layer node = .succeed filled ()) : inherit i filled globals layer node = .succeed filled () := by
  have below := lowerLayers_named named namedGlobals
  have type : filled.name = e.name := (completed_of_inherit done).name
  obtain ⟨supported, mid, endpoints, rest⟩ := inherit_eq_succeed_iff.mp done
  -- The second run finds the end points that the first one left: what comes after them is of another name.
  have kept {name : String} (notFile : Tag.jobXml ≠ name) (notConfiguration : Tag.configuration ≠ name) :
      filled.childrenNamed name = mid.childrenNamed name := by
    split at rest
    · rw [childrenNamed_of_mergeConfiguration rest notConfiguration, childrenNamed_appendJobXmls _ _ notFile]
    · rw [rest]
  rw [inherit_eq_succeed_iff, type]
  refine ⟨supported, filled, ?_, ?_⟩
  · split at endpoints
    · rename_i takes
      rw [if_pos takes]
      exact resolveEndpoints_again endpoints type (kept (by decide) (by decide)) (kept (by decide) (by decide))
    · rename_i none
      rw [if_neg none]
  · split at rest
    · rename_i takes
      rw [if_pos takes, appendJobXmls_of_mergeConfiguration rest]
      exact mergeConfiguration_again below rest
    · rename_i none
      rw [if_neg none]

/-- Of the command that runs a shell, nothing changes any more, neither the key that it sets twice nor its second configuration. -/
theorem inherit_again_shellCommand : inherit shellSite shellFilled (some shellDefaults) (some shellLayer) (some "s") =
    .succeed shellFilled () := by
  refine inherit_again (fun d given => ?_) (fun d given => ?_) inherit_shellCommand
  · cases given
    unfold Named
    decide
  · cases given
    unfold Named
    decide

end WorkflowCompiler.Definition
