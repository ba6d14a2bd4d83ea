import WorkflowCompiler.Proofs.Definition.Refilling

/-!
What inheriting adds to an element, child by child. End points that the element lacks come after its children, then the
job files that it does not list; its first configuration is replaced where it stands by the merged one, which comes last
if there was none (`Gathers`). Only a type that is registered as one that needs end points is refused for want of one,
and then there is none in the element, the global defaults or the site (`Refused`, `inherit_exact`).
-/
namespace WorkflowCompiler

theorem Attempt.andThen_error_iff {σ α β : Type} {a : Attempt σ α} {next : σ → α → Attempt σ β} {fault : Fault} :
    (a.andThen next).result = .error fault ↔
      a.result = .error fault ∨ ∃ value, a.result = .ok value ∧ (next a.state value).result = .error fault := by
  unfold Attempt.andThen
  cases a.result <;> simp

namespace Definition
open Markup (Element)

/-- Types that take end points: three that can do without, and those that are registered as types that need them. -/
def TakesEndpoints (r : Registry) (type : String) : Prop :=
  type = Tag.globals ∨ type = Tag.subWorkflow ∨ type = Tag.fileSystem ∨ (r.get? type).any ActionType.requiresEndpoints = true

/-- Types that take job files and a configuration. -/
def TakesConfiguration (r : Registry) (type : String) : Prop :=
  type = Tag.globals ∨ (r.get? type).any ActionType.supportsConfiguration = true

instance (r : Registry) (type : String) : Decidable (TakesEndpoints r type) := inferInstanceAs (Decidable (_ ∨ _))

/-- A default of a site that is not blank, trimmed. -/
def visible? (siteDefault : Option String) : Option String := (siteDefault.filter fun s => !Text.isBlankText s).map Text.trim

/-- A child with a text, for an element without a child of that name, if there is a text. -/
def lacking (e : Element) (field : String) (value : Option String) : List Element :=
  if e.childrenNamed field = [] then (value.map (Element.ofText field)).toList else []

/-- The end points that are added to an element. -/
def addedEndpoints (i : Inheritance) (globals : Option GlobalDefaults) (e : Element) : List Element :=
  if TakesEndpoints i.registry e.name then
    lacking e Tag.nameNode ((globals.bind GlobalDefaults.nameNode).or (visible? i.site.nameNode)) ++
      if e.name = Tag.fileSystem then []
      else lacking e Tag.jobTracker ((globals.bind GlobalDefaults.jobTracker).or (visible? i.site.jobTracker))
  else []

/-- The job files that are added to an element: those it does not list, each once. -/
def addedFiles (globals : Option GlobalDefaults) (e : Element) : List Element :=
  (freshFiles (jobFiles e) ((globals.map GlobalDefaults.jobXmls).getD [])).map (Element.ofText Tag.jobXml)

/-- The children of an element when it has inherited. -/
inductive Gathers (i : Inheritance) (globals : Option GlobalDefaults) (layer : Option (Dict String)) (e : Element) :
    List Element → Prop
  | plain (takes : ¬ TakesConfiguration i.registry e.name) : Gathers i globals layer e (e.children ++ addedEndpoints i globals e)
  | replaced {before after : List Element} {first : Element} {own : Dict String} (takes : TakesConfiguration i.registry e.name)
      (split : e.children = before ++ first :: after) (others : ∀ c ∈ before, c.name ≠ Tag.configuration)
      (named : first.name = Tag.configuration) (read : readConfiguration first = .ok own) :
      Gathers i globals layer e
        (before ++ mergedElement globals layer own :: after ++ addedEndpoints i globals e ++ addedFiles globals e)
  | appended (takes : TakesConfiguration i.registry e.name) (none : ∀ c ∈ e.children, c.name ≠ Tag.configuration) :
      Gathers i globals layer e
        (e.children ++ addedEndpoints i globals e ++ addedFiles globals e ++ [mergedElement globals layer .empty])

/-- An element that has inherited differs from what it was in its children only. -/
structure Completed (i : Inheritance) (globals : Option GlobalDefaults) (layer : Option (Dict String)) (e filled : Element) :
    Prop where
  name : filled.name = e.name
  attributes : filled.attributes = e.attributes
  text : filled.text = e.text
  children : Gathers i globals layer e filled.children

/-- There is no value for an end point anywhere. -/
structure Wants (e : Element) (field : String) (inherited siteDefault : Option String) : Prop where
  child : ∀ c ∈ e.children, c.name ≠ field
  globals : inherited = none
  site : ∀ value ∈ siteDefault, Text.isBlankText value = true

variable {i : Inheritance} {e filled last : Element} {globals : Option GlobalDefaults} {layer : Option (Dict String)}
  {node : Option String} {fault : Fault}

/-! ### Types and defaults -/

theorem takesEndpoints_iff {r : Registry} {type : String} :
    takesEndpoints type (r.get? type) = true ↔ TakesEndpoints r type := by
  unfold takesEndpoints TakesEndpoints
  cases r.get? type <;> simp [or_assoc]

theorem takesConfiguration_iff {r : Registry} {type : String} :
    takesConfiguration type (r.get? type) = true ↔ TakesConfiguration r type := by
  unfold takesConfiguration TakesConfiguration
  cases r.get? type <;> simp

theorem nonBlank_eq (value : Option String) : nonBlank value = visible? value := by
  unfold nonBlank visible?
  cases value with
  | none => rfl
  | some s =>
    dsimp only
    by_cases blank : Text.isBlankText s = true
    · rw [if_pos (Text.trim_eq_empty_iff.mpr blank)]
      simp [Option.filter, blank]
    · rw [if_neg fun empty => blank (Text.trim_eq_empty_iff.mp empty)]
      simp [Option.filter, blank]

theorem endpoints_eq (i : Inheritance) : i.endpoints = ⟨visible? i.site.nameNode, visible? i.site.jobTracker⟩ := by
  rw [Inheritance.endpoints, nonBlank_eq, nonBlank_eq]

theorem visible?_eq_none_iff {value : Option String} : visible? value = none ↔ ∀ s ∈ value, Text.isBlankText s = true := by
  cases value <;> simp [visible?, Option.filter]

/-! ### What is added -/

theorem name_of_lacking {field : String} {value : Option String} {c : Element} (member : c ∈ lacking e field value) :
    c.name = field := by
  unfold lacking at member
  split at member
  · obtain ⟨text, _, rfl⟩ := Option.map_eq_some_iff.mp (Option.mem_toList.mp member)
    rfl
  · cases member

theorem lacking_eq_nil_iff {field : String} {value : Option String} :
    lacking e field value = [] ↔ (e.childrenNamed field = [] → value = none) := by
  unfold lacking
  split
  · rename_i bare
    cases value <;> simp [bare]
  · rename_i present
    simp [present]

theorem name_of_addedFiles {c : Element} (member : c ∈ addedFiles globals e) : c.name = Tag.jobXml := by
  obtain ⟨file, _, rfl⟩ := List.mem_map.mp member
  rfl

/-! ### End points -/

section
variable {field : String} {inherited siteDefault : Option String} {exempt : Bool}

/-- An end point is added if it is lacking, or found wanting. -/
theorem fillEndpoint_eq (e : Element) (field : String) (inherited siteDefault : Option String) (exempt : Bool)
    (node : Option String) : fillEndpoint e field inherited siteDefault exempt node =
      if exempt = false ∧ e.childrenNamed field = [] ∧ inherited.or siteDefault = none then
        .error (.missingEndpoint field e.name node)
      else .ok (extend e (lacking e field (inherited.or siteDefault))) := by
  unfold fillEndpoint lacking
  rw [child?_eq_head?]
  cases present : e.childrenNamed field with
  | cons c rest => simp [extend_nil]
  | nil =>
    cases value : inherited.or siteDefault with
    | none => cases exempt <;> simp [extend_nil]
    | some text => simp [Element.append, extend]

theorem stepOf_error_iff {σ : Type} {s : σ} {result : Except Fault σ} :
    (stepOf s result).result = .error fault ↔ result = .error fault := by
  cases result <;> simp [stepOf, Attempt.succeed, Attempt.fail]

theorem fillEndpoint_ok (done : fillEndpoint e field inherited siteDefault exempt node = .ok filled) :
    filled = extend e (lacking e field (inherited.or siteDefault)) := by
  rw [fillEndpoint_eq] at done
  split at done
  · cases done
  · exact (Except.ok.inj done).symm

theorem code_of_fillEndpoint (failed : fillEndpoint e field inherited siteDefault exempt node = .error fault) :
    fault.code? = some .missingRequiredDefault := by
  rw [fillEndpoint_eq] at failed
  split at failed
  · cases failed
    rfl
  · cases failed

theorem wants_iff : Wants e field inherited siteDefault ↔
    e.childrenNamed field = [] ∧ inherited.or (visible? siteDefault) = none := by
  have child : e.childrenNamed field = [] ↔ ∀ c ∈ e.children, c.name ≠ field := by
    rw [Element.childrenNamed, List.filter_eq_nil_iff]
    simp
  rw [child, Option.or_eq_none_iff, visible?_eq_none_iff]
  constructor
  · exact fun wants => ⟨wants.child, wants.globals, wants.site⟩
  · rintro ⟨child, globals, site⟩
    exact ⟨child, globals, site⟩

/-- A field is found wanting only where no exemption is made. -/
theorem fillEndpoint_error_iff : fillEndpoint e field inherited (visible? siteDefault) exempt node = .error fault ↔
    (exempt = false ∧ Wants e field inherited siteDefault) ∧ fault = .missingEndpoint field e.name node := by
  rw [fillEndpoint_eq, wants_iff]
  split
  · rename_i wants
    constructor
    · exact fun failed => ⟨wants, (Except.error.inj failed).symm⟩
    · rintro ⟨_, rfl⟩
      rfl
  · rename_i supplied
    constructor
    · intro failed
      cases failed
    · exact fun failed => absurd failed.1 supplied

theorem Wants.congr (same : filled.childrenNamed field = e.childrenNamed field) :
    Wants filled field inherited siteDefault ↔ Wants e field inherited siteDefault := by
  rw [wants_iff, wants_iff, same]

end

theorem resolveEndpoints_ok (takes : TakesEndpoints i.registry e.name)
    (done : resolveEndpoints i e globals node = .succeed filled ()) : filled = extend e (addedEndpoints i globals e) := by
  obtain ⟨mid, first, second⟩ := resolveEndpoints_eq_succeed_iff.mp done
  have kept : mid.childrenNamed Tag.jobTracker = e.childrenNamed Tag.jobTracker := childrenNamed_of_fillEndpoint first (by decide)
  have named := fillEndpoint_ok first
  rw [endpoints_eq] at named
  rw [addedEndpoints, if_pos takes]
  split at second
  · rename_i onFiles
    rw [if_pos onFiles, List.append_nil, second, named]
  · rename_i other
    have tracked := fillEndpoint_ok second
    rw [endpoints_eq, lacking, kept, ← lacking] at tracked
    rw [if_neg other, tracked, named, extend_extend]

/-- Whatever end points fail with, one of them is missing. -/
theorem code_of_resolveEndpoints (failed : (resolveEndpoints i e globals node).result = .error fault) :
    fault.code? = some .missingRequiredDefault := by
  unfold resolveEndpoints at failed
  dsimp only at failed
  rcases Attempt.andThen_error_iff.mp failed with first | ⟨_, _, second⟩
  · exact code_of_fillEndpoint (stepOf_error_iff.mp first)
  · split at second
    · cases second
    · exact code_of_fillEndpoint (stepOf_error_iff.mp second)

/-- End points are found wanting where no exemption is made for the type and one of them has no value. -/
theorem resolveEndpoints_error_iff : (∃ fault, (resolveEndpoints i e globals node).result = .error fault) ↔
    isExempt e.name = false ∧ (Wants e Tag.nameNode (globals.bind GlobalDefaults.nameNode) i.site.nameNode ∨
      Wants e Tag.jobTracker (globals.bind GlobalDefaults.jobTracker) i.site.jobTracker) := by
  unfold resolveEndpoints
  dsimp only
  rw [endpoints_eq]
  cases named : fillEndpoint e Tag.nameNode (globals.bind GlobalDefaults.nameNode) (visible? i.site.nameNode) (isExempt e.name)
    node with
  | error fault =>
    obtain ⟨⟨strict, wants⟩, _⟩ := fillEndpoint_error_iff.mp named
    exact ⟨fun _ => ⟨strict, .inl wants⟩, fun _ => ⟨fault, rfl⟩⟩
  | ok mid =>
    have supplied (strict : isExempt e.name = false) :
        ¬ Wants e Tag.nameNode (globals.bind GlobalDefaults.nameNode) i.site.nameNode := by
      intro wants
      rw [fillEndpoint_error_iff.mpr ⟨⟨strict, wants⟩, rfl⟩] at named
      cases named
    have kept : mid.childrenNamed Tag.jobTracker = e.childrenNamed Tag.jobTracker := childrenNamed_of_fillEndpoint named (by decide)
    have type : mid.name = e.name := (fillEndpoint_eq_ok (by simp [inheritedFields]) named).name
    have rest : (∃ fault, (stepOf mid (fillEndpoint mid Tag.jobTracker (globals.bind GlobalDefaults.jobTracker)
        (visible? i.site.jobTracker) (isExempt e.name) node)).result = .error fault) ↔
          isExempt e.name = false ∧ Wants e Tag.jobTracker (globals.bind GlobalDefaults.jobTracker) i.site.jobTracker := by
      simp only [stepOf_error_iff, fillEndpoint_error_iff, Wants.congr kept, exists_and_left, exists_eq, and_true]
    rw [stepOf, Attempt.andThen_succeed, type]
    by_cases onFiles : e.name = Tag.fileSystem
    · rw [if_pos onFiles]
      constructor
      · rintro ⟨_, failed⟩
        cases failed
      · rintro ⟨strict, _⟩
        exact absurd strict (by simp [isExempt, onFiles])
    · rw [if_neg onFiles, rest]
      exact and_congr_right fun strict => (or_iff_right (supplied strict)).symm

/-! ### Job files and configurations -/

theorem replaceFirst_append {name : String} {new first : Element} {before after : List Element}
    (others : ∀ c ∈ before, c.name ≠ name) (named : first.name = name) :
    replaceFirst name new (before ++ first :: after) = before ++ new :: after := by
  induction before with
  | nil => rw [List.nil_append, replaceFirst, if_pos named, List.nil_append]
  | cons c rest ih =>
    obtain ⟨other, later⟩ := List.forall_mem_cons.mp others
    rw [List.cons_append, replaceFirst, if_neg other, ih later, List.cons_append]

theorem child?_eq_none_iff {name : String} : e.child? name = none ↔ ∀ c ∈ e.children, c.name ≠ name := by
  rw [Element.child?, List.find?_eq_none]
  simp

theorem child?_eq_some_iff {name : String} {first : Element} : e.child? name = some first ↔
    first.name = name ∧ ∃ before after, e.children = before ++ first :: after ∧ ∀ c ∈ before, c.name ≠ name := by
  rw [Element.child?, List.find?_eq_some_iff_append]
  simp

/-- A merge of the configuration of an element that has been extended by other children. -/
theorem gathers_of_mergeConfiguration (takes : TakesConfiguration i.registry e.name)
    (others : ∀ c ∈ addedEndpoints i globals e ++ addedFiles globals e, c.name ≠ Tag.configuration)
    (done : mergeConfiguration (extend e (addedEndpoints i globals e ++ addedFiles globals e)) globals layer = .ok filled) :
    Completed i globals layer e filled := by
  have kept : (extend e (addedEndpoints i globals e ++ addedFiles globals e)).child? Tag.configuration =
      e.child? Tag.configuration := by
    rw [child?_eq_head?, child?_eq_head?, childrenNamed_extend others]
  obtain ⟨own, read, rfl⟩ := mergeConfiguration_eq_ok_iff.mp done
  refine ⟨withConfiguration_name, withConfiguration_attributes, withConfiguration_text, ?_⟩
  rw [ownConfiguration, kept] at read
  rw [withConfiguration, kept]
  cases present : e.child? Tag.configuration with
  | none =>
    rw [present] at read
    cases read
    have children : ((extend e (addedEndpoints i globals e ++ addedFiles globals e)).append
        (mergedElement globals layer .empty)).children =
          e.children ++ addedEndpoints i globals e ++ addedFiles globals e ++ [mergedElement globals layer .empty] := by
      rw [Element.append, extend, ← List.append_assoc]
    rw [children]
    exact .appended takes (child?_eq_none_iff.mp present)
  | some first =>
    obtain ⟨named, before, after, split, earlier⟩ := child?_eq_some_iff.mp present
    rw [present] at read
    have children : replaceFirst Tag.configuration (mergedElement globals layer own)
        (e.children ++ (addedEndpoints i globals e ++ addedFiles globals e)) =
          before ++ mergedElement globals layer own :: after ++ addedEndpoints i globals e ++ addedFiles globals e := by
      rw [split, List.append_assoc, List.cons_append, replaceFirst_append earlier named]
      simp only [List.append_assoc, List.cons_append]
    exact children ▸ .replaced takes split earlier named read

theorem readProperties_error {owner : String} {d : Dict String} {properties : List Element}
    (failed : readProperties owner d properties = .error fault) : fault = .propertyWithoutName owner := by
  induction properties generalizing d with
  | nil => cases failed
  | cons p rest ih =>
    unfold readProperties at failed
    split at failed
    · cases failed
      rfl
    · split at failed
      · cases failed
        rfl
      · split at failed
        · exact ih failed
        · exact ih failed

theorem code_of_ownConfiguration (failed : ownConfiguration e = .error fault) : fault.code? = some .markupParseFailure := by
  unfold ownConfiguration at failed
  split at failed
  · cases failed
  · rw [readProperties_error failed]
    rfl

/-- Whatever a configuration fails with, it cannot be read. -/
theorem code_of_resolveConfiguration (failed : (resolveConfiguration e globals layer).result = .error fault) :
    fault.code? = some .markupParseFailure := by
  unfold resolveConfiguration at failed
  have refused := stepOf_error_iff.mp failed
  rw [mergeConfiguration_eq] at refused
  cases read : ownConfiguration (appendJobXmls e ((globals.map GlobalDefaults.jobXmls).getD [])) with
  | ok own =>
    rw [read] at refused
    cases refused
  | error fault =>
    rw [read] at refused
    cases refused
    exact code_of_ownConfiguration read

/-! ### Elements that inherit -/

theorem name_of_addedEndpoints {c : Element} (member : c ∈ addedEndpoints i globals e) :
    c.name = Tag.nameNode ∨ c.name = Tag.jobTracker := by
  unfold addedEndpoints at member
  split at member
  · rcases List.mem_append.mp member with first | second
    · exact .inl (name_of_lacking first)
    · split at second
      · cases second
      · exact .inr (name_of_lacking second)
  · cases member

/-- An element has its end points when the rest is filled in. -/
theorem endpoints_of_inherit (done : if takesEndpoints e.name (i.registry.get? e.name) then
    resolveEndpoints i e globals node = .succeed filled () else filled = e) : filled = extend e (addedEndpoints i globals e) := by
  split at done
  · rename_i takes
    exact resolveEndpoints_ok (takesEndpoints_iff.mp takes) done
  · rename_i none
    rw [addedEndpoints, if_neg fun takes => none (takesEndpoints_iff.mpr takes), extend_nil, done]

theorem completed_of_inherit (done : inherit i e globals layer node = .succeed filled ()) : Completed i globals layer e filled := by
  obtain ⟨_, mid, endpoints, rest⟩ := inherit_eq_succeed_iff.mp done
  obtain rfl := endpoints_of_inherit endpoints
  split at rest
  · rename_i takes
    have files : jobFiles (extend e (addedEndpoints i globals e)) = jobFiles e := by
      rw [jobFiles, jobFiles, childrenNamed_extend]
      intro c member
      rcases name_of_addedEndpoints member with same | same <;> rw [same] <;> decide
    rw [appendJobXmls_eq, files, extend_extend] at rest
    refine gathers_of_mergeConfiguration (takesConfiguration_iff.mp takes) (fun c member => ?_) rest
    rcases List.mem_append.mp member with endpoint | file
    · rcases name_of_addedEndpoints endpoint with same | same <;> rw [same] <;> decide
    · rw [name_of_addedFiles file]
      decide
  · rename_i none
    subst rest
    exact ⟨rfl, rfl, rfl, .plain fun takes => none (takesConfiguration_iff.mpr takes)⟩

/-- An element is refused for want of an end point if its type is one that needs end points and no exemption is made. -/
structure Refused (i : Inheritance) (globals : Option GlobalDefaults) (e : Element) : Prop where
  requires : (i.registry.get? e.name).any ActionType.requiresEndpoints = true
  notGlobals : e.name ≠ Tag.globals
  notSubWorkflow : e.name ≠ Tag.subWorkflow
  notFileSystem : e.name ≠ Tag.fileSystem
  wants : Wants e Tag.nameNode (globals.bind GlobalDefaults.nameNode) i.site.nameNode ∨
    Wants e Tag.jobTracker (globals.bind GlobalDefaults.jobTracker) i.site.jobTracker

theorem refused_iff : Refused i globals e ↔ takesEndpoints e.name (i.registry.get? e.name) = true ∧ isExempt e.name = false ∧
    (Wants e Tag.nameNode (globals.bind GlobalDefaults.nameNode) i.site.nameNode ∨
      Wants e Tag.jobTracker (globals.bind GlobalDefaults.jobTracker) i.site.jobTracker) := by
  have strict : isExempt e.name = false ↔ e.name ≠ Tag.globals ∧ e.name ≠ Tag.subWorkflow ∧ e.name ≠ Tag.fileSystem := by
    simp [isExempt, and_assoc]
  rw [takesEndpoints_iff, strict]
  constructor
  · exact fun refused => ⟨.inr (.inr (.inr refused.requires)), ⟨refused.notGlobals, refused.notSubWorkflow, refused.notFileSystem⟩,
      refused.wants⟩
  · rintro ⟨takes, ⟨notGlobals, notSubWorkflow, notFileSystem⟩, wants⟩
    rcases takes with same | same | same | requires
    · exact absurd same notGlobals
    · exact absurd same notSubWorkflow
    · exact absurd same notFileSystem
    · exact ⟨requires, notGlobals, notSubWorkflow, notFileSystem, wants⟩

theorem inherit_refuses_iff : (∃ fault, (inherit i e globals layer node).result = .error fault ∧
    fault.code? = some .missingRequiredDefault) ↔ Refused i globals e := by
  have late {mid : Element} {fault : Fault} (failed : (if takesConfiguration mid.name (i.registry.get? e.name) then
      resolveConfiguration mid globals layer else .succeed mid ()).result = .error fault) :
        fault.code? = some .markupParseFailure := by
    split at failed
    · exact code_of_resolveConfiguration failed
    · cases failed
  unfold inherit
  dsimp only
  split
  · rename_i unknown
    have unregistered : i.registry.get? e.name = none := by
      rw [Bool.and_eq_true, Option.isNone_iff_eq_none] at unknown
      exact unknown.1
    constructor
    · rintro ⟨fault, failed, code⟩
      cases failed
      cases code
    · intro refused
      have requires := refused.requires
      rw [unregistered] at requires
      cases requires
  · rw [refused_iff]
    by_cases takes : takesEndpoints e.name (i.registry.get? e.name) = true
    · rw [if_pos takes, ← resolveEndpoints_error_iff]
      constructor
      · rintro ⟨fault, failed, code⟩
        rcases Attempt.andThen_error_iff.mp failed with endpoints | ⟨_, _, rest⟩
        · exact ⟨takes, fault, endpoints⟩
        · rw [late rest] at code
          cases code
      · rintro ⟨_, fault, failed⟩
        exact ⟨fault, Attempt.andThen_error_iff.mpr (.inl failed), code_of_resolveEndpoints failed⟩
    · rw [if_neg takes, Attempt.andThen_succeed]
      constructor
      · rintro ⟨fault, failed, code⟩
        rw [late failed] at code
        cases code
      · exact fun refused => absurd refused.1 takes

/-- What is missing is exactly what an element is refused for, and what is added is exactly what it lacks. -/
theorem inherit_exact (i : Inheritance) (e : Element) (globals : Option GlobalDefaults) (layer : Option (Dict String))
    (node : Option String) :
    ((∃ fault, (inherit i e globals layer node).result = .error fault ∧ fault.code? = some .missingRequiredDefault) ↔
      Refused i globals e) ∧
    ∀ filled, inherit i e globals layer node = .succeed filled () → Completed i globals layer e filled :=
  ⟨inherit_refuses_iff, fun _ => completed_of_inherit⟩

/-- A shell command that lists a file twice, with two configurations, of which the first sets a key twice and leaves another
without a value. -/
def shellCommand : Element :=
  { name := "shell"
    children := [.ofText Tag.jobXml "a",
      { name := Tag.configuration
        children := [propertyElement "k" "1", { name := Tag.property, children := [.ofText Tag.propertyName "v"] },
          propertyElement "k" "2"] },
      .ofText "exec" "x", { name := Tag.configuration, children := [propertyElement "z" "9"] }, .ofText Tag.jobXml "a"] }

def shellDefaults : GlobalDefaults :=
  { jobTracker := some "t", jobXmls := ["b", "a", "b"], configuration := some ((Dict.empty.put "k" "0").put "m" "5") }

def shellLayer : Dict String := Dict.empty.put "l" "3"

/-- A site with a name node and a blank job tracker. -/
def shellSite : Inheritance := ⟨.withBuiltins [], ⟨some " n ", some " "⟩⟩

def shellFilled : Element :=
  { shellCommand with
    children := [.ofText Tag.jobXml "a",
      { name := Tag.configuration, children := [propertyElement "l" "3", propertyElement "k" "2", propertyElement "m" "5"] },
      .ofText "exec" "x", { name := Tag.configuration, children := [propertyElement "z" "9"] }, .ofText Tag.jobXml "a",
      .ofText Tag.nameNode "n", .ofText Tag.jobTracker "t", .ofText Tag.jobXml "b"] }

theorem inherit_shellCommand :
    inherit shellSite shellCommand (some shellDefaults) (some shellLayer) (some "s") = .succeed shellFilled () := by
  rfl

/-- The command takes its name node from the site; without the defaults it is refused, for the job tracker of the site is blank. -/
theorem inherit_exact_shellCommand :
    Completed shellSite (some shellDefaults) (some shellLayer) shellCommand shellFilled ∧
      ∃ fault, (inherit shellSite shellCommand none (some shellLayer) (some "s")).result = .error fault ∧
        fault.code? = some .missingRequiredDefault := by
  have refused : Refused shellSite none shellCommand :=
    ⟨by decide, by decide, by decide, by decide, .inr ⟨by decide, rfl, by decide⟩⟩
  exact ⟨(inherit_exact shellSite shellCommand (some shellDefaults) (some shellLayer) (some "s")).2 _ inherit_shellCommand,
    (inherit_exact shellSite shellCommand none (some shellLayer) (some "s")).1.mpr refused⟩

end Definition
end WorkflowCompiler
