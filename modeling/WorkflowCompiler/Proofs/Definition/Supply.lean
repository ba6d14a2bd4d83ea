import WorkflowCompiler.Proofs.Definition.Inheritance

/-!
Where the end points and the job files of an element come from when it inherits. Each end point
is the element's own, else that of the global defaults, else the site's; the job files are its own and then
those of the global defaults that it does not have yet, each once (`supplied_of_inherit`).
-/
namespace WorkflowCompiler.Definition
open Markup (Element)

/-- The job files that an element lists. -/
def jobFiles (e : Element) : List String := (e.childrenNamed Tag.jobXml).map Element.text

/-- The files of a list that are not among others, each where it first appears. -/
def freshFiles (others files : List String) : List String := (files.filter (· ∉ others)).eraseDups

variable {e filled : Element} {globals : Option GlobalDefaults} {layer : Option (Dict String)}

theorem child?_eq_head? (e : Element) (name : String) : e.child? name = (e.childrenNamed name).head? :=
  List.head?_filter.symm

/-- Only children of the name count. -/
theorem childText?_congr {name : String} (same : filled.childrenNamed name = e.childrenNamed name) :
    filled.childText? name = e.childText? name := by
  rw [Element.childText?, Element.childText?, child?_eq_head?, child?_eq_head?, same]

theorem childrenNamed_append_other {c : Element} {name : String} (other : c.name ≠ name) :
    (e.append c).childrenNamed name = e.childrenNamed name := by
  rw [Element.childrenNamed_append, if_neg (by simpa using other), List.append_nil]

/-! ### End points -/

section
variable {field : String} {inherited siteDefault : Option String} {exempt : Bool} {node : Option String}

theorem childText?_of_fillEndpoint (done : fillEndpoint e field inherited siteDefault exempt node = .ok filled) :
    filled.childText? field = (e.childText? field).or (inherited.or siteDefault) := by
  unfold fillEndpoint at done
  cases own : e.child? field with
  | some c =>
    rw [own] at done
    cases done
    simp [Element.childText?, own]
  | none =>
    simp only [own] at done
    split at done
    · rename_i value supplied
      cases done
      simp [Element.childText?, Element.child?_append, own, supplied, Element.ofText]
    · rename_i none
      split at done
      · cases done
        simp [Element.childText?, own, none]
      · cases done

theorem childrenNamed_of_fillEndpoint (done : fillEndpoint e field inherited siteDefault exempt node = .ok filled) {name : String}
    (other : field ≠ name) : filled.childrenNamed name = e.childrenNamed name := by
  unfold fillEndpoint at done
  split at done
  · cases done
    rfl
  · split at done
    · cases done
      exact childrenNamed_append_other other
    · split at done
      · cases done
        rfl
      · cases done

end

/-- The end points of an element that inherited. -/
structure SuppliesEndpoints (i : Inheritance) (globals : Option GlobalDefaults) (e filled : Element) : Prop where
  nameNode : filled.childText? Tag.nameNode =
    (e.childText? Tag.nameNode).or ((globals.bind GlobalDefaults.nameNode).or i.endpoints.nameNode)
  jobTracker : e.name ≠ Tag.fileSystem → filled.childText? Tag.jobTracker =
    (e.childText? Tag.jobTracker).or ((globals.bind GlobalDefaults.jobTracker).or i.endpoints.jobTracker)
  /-- What works on files only takes no job tracker. -/
  ownTracker : e.name = Tag.fileSystem → filled.childText? Tag.jobTracker = e.childText? Tag.jobTracker

theorem suppliesEndpoints_of_resolveEndpoints {i : Inheritance} {node : Option String}
    (done : resolveEndpoints i e globals node = .succeed filled ()) : SuppliesEndpoints i globals e filled := by
  obtain ⟨mid, named, rest⟩ := resolveEndpoints_eq_succeed_iff.mp done
  have nameNode := childText?_of_fillEndpoint named
  have tracker : mid.childText? Tag.jobTracker = e.childText? Tag.jobTracker :=
    childText?_congr (childrenNamed_of_fillEndpoint named (by decide))
  split at rest
  · rename_i onFiles
    subst rest
    exact ⟨nameNode, fun other => absurd onFiles other, fun _ => tracker⟩
  · rename_i other
    refine ⟨?_, fun _ => ?_, fun onFiles => absurd onFiles other⟩
    · rw [← nameNode]
      exact childText?_congr (childrenNamed_of_fillEndpoint rest (by decide))
    · rw [← tracker]
      exact childText?_of_fillEndpoint rest

theorem childrenNamed_of_resolveEndpoints {i : Inheritance} {node : Option String}
    (done : resolveEndpoints i e globals node = .succeed filled ()) {name : String} (notNameNode : Tag.nameNode ≠ name)
    (notTracker : Tag.jobTracker ≠ name) : filled.childrenNamed name = e.childrenNamed name := by
  obtain ⟨mid, first, second⟩ := resolveEndpoints_eq_succeed_iff.mp done
  have named := childrenNamed_of_fillEndpoint first notNameNode
  split at second
  · rw [second, named]
  · exact (childrenNamed_of_fillEndpoint second notTracker).trans named

/-! ### Job files -/

/-- An element with more children at the end. -/
def extend (e : Element) (more : List Element) : Element := { e with children := e.children ++ more }

theorem extend_nil (e : Element) : extend e [] = e := by
  cases e
  simp [extend]

theorem extend_append (e c : Element) (more : List Element) : extend (e.append c) more = extend e (c :: more) := by
  rw [extend, extend, Element.append, List.append_assoc, List.singleton_append]

theorem extend_extend (e : Element) (more others : List Element) : extend (extend e more) others = extend e (more ++ others) := by
  rw [extend, extend, extend, List.append_assoc]

theorem childrenNamed_extend_append (e : Element) (more : List Element) (name : String) :
    (extend e more).childrenNamed name = e.childrenNamed name ++ more.filter fun c => c.name == name :=
  List.filter_append e.children more

theorem childrenNamed_extend {more : List Element} {name : String} (others : ∀ c ∈ more, c.name ≠ name) :
    (extend e more).childrenNamed name = e.childrenNamed name := by
  have none : more.filter (fun c => c.name == name) = [] :=
    List.filter_eq_nil_iff.mpr fun c member => by simpa using others c member
  rw [childrenNamed_extend_append, none, List.append_nil]

theorem jobFiles_append (e : Element) (file : String) : jobFiles (e.append (.ofText Tag.jobXml file)) = jobFiles e ++ [file] := by
  rw [jobFiles, Element.childrenNamed_append, List.map_append]
  rfl

/-- Job files are added in the order in which they first appear. -/
theorem appendJobXmls_eq (e : Element) (files : List String) :
    appendJobXmls e files = extend e ((freshFiles (jobFiles e) files).map (Element.ofText Tag.jobXml)) := by
  induction files generalizing e with
  | nil => rw [appendJobXmls, freshFiles, List.filter_nil, List.eraseDups_nil, List.map_nil, extend_nil]
  | cons file rest ih =>
    have listed : (e.childrenNamed Tag.jobXml).map Element.text = jobFiles e := rfl
    rw [appendJobXmls, listed]
    by_cases present : file ∈ jobFiles e
    · rw [if_pos present, ih, freshFiles, freshFiles, List.filter_cons_of_neg (by simpa using present)]
    · have others : (rest.filter (· ∉ jobFiles e)).filter (fun other => !other == file) = rest.filter (· ∉ jobFiles e ++ [file]) := by
        rw [List.filter_filter]
        refine List.filter_congr fun other _ => ?_
        by_cases same : other = file
        · simp [same]
        · simp [same]
      rw [if_neg present, ih, jobFiles_append, freshFiles, freshFiles, List.filter_cons_of_pos (by simpa using present),
        List.eraseDups_cons, others, List.map_cons, extend_append]

theorem childrenNamed_appendJobXmls (e : Element) (files : List String) {name : String} (other : Tag.jobXml ≠ name) :
    (appendJobXmls e files).childrenNamed name = e.childrenNamed name := by
  rw [appendJobXmls_eq, childrenNamed_extend]
  intro c member
  obtain ⟨file, _, rfl⟩ := List.mem_map.mp member
  exact other

theorem jobFiles_appendJobXmls (e : Element) (files : List String) :
    jobFiles (appendJobXmls e files) = jobFiles e ++ freshFiles (jobFiles e) files := by
  have own : ((freshFiles (jobFiles e) files).map (Element.ofText Tag.jobXml)).filter (fun c => c.name == Tag.jobXml) =
      (freshFiles (jobFiles e) files).map (Element.ofText Tag.jobXml) := by
    refine List.filter_eq_self.mpr fun c member => ?_
    obtain ⟨file, _, rfl⟩ := List.mem_map.mp member
    rfl
  have texts : (freshFiles (jobFiles e) files).map (Element.text ∘ Element.ofText Tag.jobXml) = freshFiles (jobFiles e) files :=
    List.map_id _
  rw [appendJobXmls_eq, jobFiles, childrenNamed_extend_append, own, List.map_append, List.map_map, texts, ← jobFiles]

theorem childrenNamed_replaceFirst {old name : String} {new : Element} (named : new.name = old) (other : old ≠ name)
    (children : List Element) :
    (replaceFirst old new children).filter (fun c => c.name == name) = children.filter fun c => c.name == name := by
  induction children with
  | nil => rfl
  | cons c rest ih =>
    rw [replaceFirst]
    split
    · rename_i first
      rw [List.filter_cons_of_neg (by simpa [named] using other), List.filter_cons_of_neg (by simpa [first] using other)]
    · rw [List.filter_cons, List.filter_cons, ih]

theorem childrenNamed_withConfiguration {new : Element} (named : new.name = Tag.configuration) {name : String}
    (other : Tag.configuration ≠ name) : (withConfiguration e new).childrenNamed name = e.childrenNamed name := by
  unfold withConfiguration
  split
  · exact childrenNamed_append_other (named ▸ other)
  · exact childrenNamed_replaceFirst named other e.children

theorem childrenNamed_of_mergeConfiguration (done : mergeConfiguration e globals layer = .ok filled) {name : String}
    (other : Tag.configuration ≠ name) : filled.childrenNamed name = e.childrenNamed name := by
  obtain ⟨own, _, rfl⟩ := mergeConfiguration_eq_ok_iff.mp done
  exact childrenNamed_withConfiguration rfl other

/-! ### Elements that have inherited -/

/-- Where an element has its end points and its job files from. -/
structure Supplied (i : Inheritance) (globals : Option GlobalDefaults) (e filled : Element) : Prop where
  endpoints : takesEndpoints e.name (i.registry.get? e.name) = true → SuppliesEndpoints i globals e filled
  jobFiles : takesConfiguration e.name (i.registry.get? e.name) = true →
    jobFiles filled = jobFiles e ++ freshFiles (jobFiles e) ((globals.map GlobalDefaults.jobXmls).getD [])

theorem SuppliesEndpoints.congr {i : Inheritance} {last : Element} (supplies : SuppliesEndpoints i globals e filled)
    (nameNode : last.childrenNamed Tag.nameNode = filled.childrenNamed Tag.nameNode)
    (jobTracker : last.childrenNamed Tag.jobTracker = filled.childrenNamed Tag.jobTracker) : SuppliesEndpoints i globals e last where
  nameNode := (childText?_congr nameNode).trans supplies.nameNode
  jobTracker other := (childText?_congr jobTracker).trans (supplies.jobTracker other)
  ownTracker onFiles := (childText?_congr jobTracker).trans (supplies.ownTracker onFiles)

theorem supplied_of_inherit {i : Inheritance} {node : Option String} (done : inherit i e globals layer node = .succeed filled ()) :
    Supplied i globals e filled := by
  obtain ⟨_, mid, endpoints, rest⟩ := inherit_eq_succeed_iff.mp done
  obtain ⟨files, supplies⟩ : mid.childrenNamed Tag.jobXml = e.childrenNamed Tag.jobXml ∧
      (takesEndpoints e.name (i.registry.get? e.name) = true → SuppliesEndpoints i globals e mid) := by
    split at endpoints
    · exact ⟨childrenNamed_of_resolveEndpoints endpoints (by decide) (by decide),
        fun _ => suppliesEndpoints_of_resolveEndpoints endpoints⟩
    · rename_i none
      exact ⟨by rw [endpoints], fun takes => absurd takes none⟩
  split at rest
  · have kept {name : String} (notFile : Tag.jobXml ≠ name) (notConfiguration : Tag.configuration ≠ name) :
        filled.childrenNamed name = mid.childrenNamed name :=
      (childrenNamed_of_mergeConfiguration rest notConfiguration).trans (childrenNamed_appendJobXmls _ _ notFile)
    refine ⟨fun takes => (supplies takes).congr (kept (by decide) (by decide)) (kept (by decide) (by decide)), fun _ => ?_⟩
    have own : jobFiles mid = jobFiles e := by rw [jobFiles, jobFiles, files]
    rw [← own, ← jobFiles_appendJobXmls, jobFiles, jobFiles, childrenNamed_of_mergeConfiguration rest (by decide)]
  · rename_i none
    subst rest
    exact ⟨supplies, fun contrary => absurd contrary none⟩

end WorkflowCompiler.Definition
