import WorkflowCompiler.Proofs.ActionConf
import WorkflowCompiler.Proofs.Definition.Handing
import WorkflowCompiler.Proofs.Definition.Supply

/-!
The defaults that a line of global sections adds up to, the oldest first. Each section is filled in from what the
sections before it came to (`SetsOver`), so an end point comes from the last section that has it, job files from
the last section first, and configurations lie one over the other (`Sums`). A workflow whose global section comes
before its actions adds its section to the line and hands the sum on (`Sums.effective`, `handed_of_build`).
-/
namespace WorkflowCompiler.Definition
open Markup (Element)

/-- A global section is the only one, and it comes before all actions. -/
def SectionFirst (elements : List Element) : Prop :=
  elements.Pairwise fun earlier later => later.name = Tag.globals → earlier.name ≠ Tag.globals ∧ earlier.name ≠ Tag.action

instance (elements : List Element) : Decidable (SectionFirst elements) :=
  inferInstanceAs (Decidable (List.Pairwise _ _))

/-- The text of a child in the last element that has the child. -/
def nearest? (field : String) (sections : List Element) : Option String :=
  sections.reverse.findSome? fun e => e.childText? field

/-- The defaults of a global section over those that it was filled in from. -/
structure SetsOver (i : Inheritance) (inherited : Option GlobalDefaults) (e : Element) (g : GlobalDefaults) : Prop where
  nameNode : g.nameNode.or i.endpoints.nameNode =
    (e.childText? Tag.nameNode).or ((inherited.bind GlobalDefaults.nameNode).or i.endpoints.nameNode)
  jobTracker : g.jobTracker.or i.endpoints.jobTracker =
    (e.childText? Tag.jobTracker).or ((inherited.bind GlobalDefaults.jobTracker).or i.endpoints.jobTracker)
  jobXmls : g.jobXmls.eraseDups = (jobFiles e ++ (inherited.map GlobalDefaults.jobXmls).getD []).eraseDups
  configuration : ∃ own, ownConfiguration e = .ok own ∧
    g.configuration.getD .empty = ((inherited.bind GlobalDefaults.configuration).getD .empty).overlay own

/-- What sections add up to, where the site's end points count in the end. -/
structure Sums (i : Inheritance) (sections : List Element) (globals : Option GlobalDefaults) : Prop where
  nameNode : (globals.bind GlobalDefaults.nameNode).or i.endpoints.nameNode = (nearest? Tag.nameNode sections).or i.endpoints.nameNode
  jobTracker : (globals.bind GlobalDefaults.jobTracker).or i.endpoints.jobTracker =
    (nearest? Tag.jobTracker sections).or i.endpoints.jobTracker
  jobXmls : ((globals.map GlobalDefaults.jobXmls).getD []).eraseDups = (sections.reverse.flatMap jobFiles).eraseDups
  configuration : ∃ configurations, sections.mapM ownConfiguration = .ok configurations ∧
    (globals.bind GlobalDefaults.configuration).getD .empty = .stack configurations

variable {b : Builder} {s t : BuildState} {i : Inheritance} {e root : Element} {inherited globals : Option GlobalDefaults}
  {g : GlobalDefaults} {graph : Graph} {sections : List Element} {conf after : Dict String}

/-! ### One section -/

theorem readProperties_eq_ok {owner : String} {entries : List (String × String)} {before after : Dict String}
    (read : readProperties owner before (entries.map fun e => propertyElement e.1 e.2) = .ok after) : after = before.putAll entries := by
  induction entries generalizing before with
  | nil =>
    cases read
    rfl
  | cons e rest ih =>
    have name : (propertyElement e.1 e.2).childText? Tag.propertyName = some e.1 := rfl
    have value : (propertyElement e.1 e.2).childText? Tag.propertyValue = some e.2 := rfl
    rw [List.map_cons, readProperties, name] at read
    simp only [value] at read
    split at read
    · cases read
    · exact ih read

/-- The element of a configuration says nothing but the configuration. -/
theorem eq_of_readConfiguration {d found : Dict String} (read : readConfiguration (configurationElement d) = .ok found) : found = d := by
  rw [readConfiguration, properties_configurationElement] at read
  exact (readProperties_eq_ok read).trans d.ofList_entries

theorem ofSection_eq_ok (read : GlobalDefaults.ofSection e = .ok g) : g.nameNode = e.childText? Tag.nameNode ∧
    g.jobTracker = e.childText? Tag.jobTracker ∧ g.jobXmls = jobFiles e ∧ ownConfiguration e = .ok (g.configuration.getD .empty) := by
  unfold GlobalDefaults.ofSection at read
  dsimp only at read
  split at read
  · rename_i none
    cases read
    exact ⟨rfl, rfl, rfl, by rw [ownConfiguration, none]; rfl⟩
  · rename_i c present
    obtain ⟨own, found, rfl⟩ := Except.map_eq_ok read
    exact ⟨rfl, rfl, rfl, by rw [ownConfiguration, present]; exact found⟩

/-- What was taken over once is not taken over again. -/
theorem eraseDups_append_freshFiles (own files : List String) : (own ++ freshFiles own files).eraseDups = (own ++ files).eraseDups := by
  have others (files : List String) : files.removeAll own = files.filter (· ∉ own) := by
    rw [List.removeAll]
    exact List.filter_congr fun file _ => by simp
  have fresh : (freshFiles own files).filter (· ∉ own) = freshFiles own files :=
    List.filter_eq_self.mpr fun file member => (List.mem_filter.mp (List.mem_eraseDups.mp member)).2
  have once : (freshFiles own files).eraseDups = freshFiles own files := Dict.eraseDups_nodup (Dict.nodup_eraseDups _)
  rw [List.eraseDups_append, List.eraseDups_append, others, others, fresh, once, freshFiles]

theorem setsOver_of_sectionDefaults (tag : e.name = Tag.globals) (set : sectionDefaults i inherited e = .ok g) :
    SetsOver i inherited e g := by
  cases inherited with
  | none =>
    obtain ⟨nameNode, jobTracker, jobXmls, own⟩ := ofSection_eq_ok set
    refine ⟨by rw [nameNode]; rfl, by rw [jobTracker]; rfl, by rw [jobXmls]; simp, _, own, ?_⟩
    exact (Dict.empty_overlay _).symm
  | some h =>
    cases done : inherit i e (some h) none none with
    | mk filled result =>
      simp only [sectionDefaults, done] at set
      cases result with
      | error fault => cases set
      | ok _ =>
        have supplied := supplied_of_inherit done
        obtain ⟨nameNode, jobTracker, jobXmls, read⟩ := ofSection_eq_ok set
        have endpoints := supplied.endpoints (by rw [tag]; rfl)
        have files := supplied.jobFiles (by rw [tag]; rfl)
        obtain ⟨own, found, written⟩ := (inherits_of_inherit done).configuration (by rw [tag]; rfl)
        refine ⟨?_, ?_, ?_, own, found, ?_⟩
        · rw [nameNode, endpoints.nameNode, Option.or_assoc, Option.or_assoc, Option.or_self]
        · rw [jobTracker, endpoints.jobTracker (by rw [tag]; decide), Option.or_assoc, Option.or_assoc, Option.or_self]
        · rw [jobXmls, files, eraseDups_append_freshFiles]
        · rw [ownConfiguration, written] at read
          rw [eq_of_readConfiguration read, Dict.stack, configurationLayers]
          simp only [List.foldl_cons, List.foldl_nil, Option.getD_none, Dict.empty_overlay]

/-! ### Lines of sections -/

theorem nearest?_append (field : String) (sections : List Element) (e : Element) :
    nearest? field (sections ++ [e]) = (e.childText? field).or (nearest? field sections) := by
  rw [nearest?, nearest?, List.reverse_append, List.reverse_singleton, List.singleton_append, List.findSome?_cons]
  cases e.childText? field <;> rfl

theorem Sums.none : Sums i [] Option.none where
  nameNode := rfl
  jobTracker := rfl
  jobXmls := rfl
  configuration := ⟨[], rfl, rfl⟩

/-- The files of two lists count alike if the lists have the same files in the same order of first appearance. -/
theorem eraseDups_append_congr (own : List String) {files other : List String} (same : files.eraseDups = other.eraseDups) :
    (own ++ files).eraseDups = (own ++ other).eraseDups := by
  have filtered (files : List String) : (files.removeAll own).eraseDups = files.eraseDups.filter (fun file => !own.elem file) := by
    rw [List.removeAll, Dict.eraseDups_filter]
  rw [List.eraseDups_append, List.eraseDups_append, filtered, filtered, same]

/-- Which files are taken over depends on their order of first appearance only. -/
theorem freshFiles_congr (own : List String) {files other : List String} (same : files.eraseDups = other.eraseDups) :
    freshFiles own files = freshFiles own other := by
  rw [freshFiles, freshFiles, Dict.eraseDups_filter, Dict.eraseDups_filter, same]

theorem Sums.add (sums : Sums i sections inherited) (sets : SetsOver i inherited e g) : Sums i (sections ++ [e]) (some g) where
  nameNode := by
    rw [nearest?_append, Option.or_assoc, ← sums.nameNode]
    exact sets.nameNode
  jobTracker := by
    rw [nearest?_append, Option.or_assoc, ← sums.jobTracker]
    exact sets.jobTracker
  jobXmls := by
    rw [List.reverse_append, List.reverse_singleton, List.singleton_append, List.flatMap_cons]
    exact sets.jobXmls.trans (eraseDups_append_congr _ sums.jobXmls)
  configuration := by
    obtain ⟨configurations, read, same⟩ := sums.configuration
    obtain ⟨own, found, overlaid⟩ := sets.configuration
    refine ⟨configurations ++ [own], ?_, ?_⟩
    · rw [List.mapM_append, read, List.mapM_cons, found]
      rfl
    · rw [Dict.stack_append, ← same]
      exact overlaid

/-! ### Workflows that set their defaults first -/

namespace SectionFirst
variable {elements before later : List Element}

theorem undisturbed (first : SectionFirst elements) : Undisturbed elements := by
  intro earlier action last found _ asks isLast
  have pair : [action, last].Sublist elements := (List.sublist_cons_self earlier _).trans found
  have order := List.Pairwise.sublist pair first
  simp only [List.pairwise_cons, List.mem_singleton, forall_eq] at order
  exact (order.1 isLast).2 (tag_of_handsOn asks)

/-- After an action there is no section. -/
theorem none_after (first : SectionFirst elements) (split : elements = before ++ e :: later) (tag : e.name = Tag.action) :
    ∀ d ∈ later, d.name ≠ Tag.globals := by
  intro d member isSection
  rw [SectionFirst, split, List.pairwise_append, List.pairwise_cons] at first
  exact (first.2.1.1 d member isSection).2 tag

/-- The defaults that an action takes are those in effect in the end. -/
theorem effective_before (first : SectionFirst elements) (split : elements = before ++ e :: later) (tag : e.name = Tag.action) :
    effective i inherited elements = effective i inherited before := by
  rw [split]
  refine effective_others (List.forall_mem_cons.mpr ⟨?_, first.none_after split tag⟩)
  rw [tag]
  decide

theorem filter_eq (first : SectionFirst elements) :
    elements.filter (fun e => e.name == Tag.globals) = (elements.find? fun e => e.name == Tag.globals).toList := by
  induction elements with
  | nil => rfl
  | cons e rest ih =>
    rw [SectionFirst, List.pairwise_cons] at first
    by_cases tag : e.name = Tag.globals
    · have none : rest.filter (fun e => e.name == Tag.globals) = [] := by
        refine List.filter_eq_nil_iff.mpr fun d member => ?_
        intro isSection
        exact (first.1 d member (beq_iff_eq.mp isSection)).1 tag
      rw [List.filter_cons_of_pos (by simpa using tag), none, List.find?_cons_of_pos (by simpa using tag)]
      rfl
    · rw [List.filter_cons_of_neg (by simpa using tag), List.find?_cons_of_neg (by simpa using tag)]
      exact ih first.2

end SectionFirst

/-- A workflow adds its section, if it has one, to the line that it was handed the sum of. -/
theorem Sums.effective (sums : Sums i sections inherited) (first : SectionFirst root.children)
    (inEffect : effective i inherited root.children = .ok globals) : Sums i (sections ++ (root.child? Tag.globals).toList) globals := by
  rw [Definition.effective, first.filter_eq, ← Element.child?] at inEffect
  cases present : root.child? Tag.globals with
  | none =>
    rw [present] at inEffect
    cases inEffect
    rw [Option.toList_none, List.append_nil]
    exact sums
  | some e =>
    rw [present] at inEffect
    obtain ⟨g, set, rfl⟩ := Except.map_eq_ok inEffect
    have tag : e.name = Tag.globals := by simpa using List.find?_some present
    exact sums.add (setsOver_of_sectionDefaults tag set)

/-- Without defaults in effect there is no section yet, and there was nothing to inherit. -/
theorem inherited_of_effective_none {past : List Element} (nothing : effective i inherited past = .ok none) : inherited = none := by
  rw [effective] at nothing
  split at nothing
  · exact Except.ok.inj nothing
  · obtain ⟨_, _, same⟩ := Except.map_eq_ok nothing
    cases same

/-- What a workflow has handed on in the end is what is in effect in the end. -/
theorem handed_of_build (built : build b root conf = .succeed after graph) (first : SectionFirst root.children)
    (asks : root.children.any handsOn = true) (start : inheritedGlobals conf = .ok inherited) :
    ∃ globals, inheritedGlobals after = .ok globals ∧ effective b.inheritance inherited root.children = .ok globals := by
  obtain ⟨name, handed, t, _, same, builds, rfl, _⟩ := build_eq_succeed built
  rw [start] at same
  cases same
  have traces := (Traces.start b conf inherited name).builds start first.undisturbed builds
  rw [List.nil_append] at traces
  refine ⟨t.globals, ?_, traces.globals⟩
  cases propagated : t.propagated with
  | false =>
    obtain ⟨kept, nothing⟩ := traces.kept propagated
    obtain ⟨action, member, asks⟩ := List.any_eq_true.mp asks
    obtain ⟨before, later, split⟩ := List.append_of_mem member
    have none := nothing before action later split asks
    have inEffect := traces.globals
    rw [first.effective_before split (tag_of_handsOn asks), none] at inEffect
    rw [kept, start, inherited_of_effective_none none]
    exact inEffect
  | true =>
    obtain ⟨before, action, later, g, split, asks, handedOn, same⟩ := traces.handed propagated
    have inEffect := traces.globals
    rw [first.effective_before split (tag_of_handsOn asks), handedOn] at inEffect
    rw [same, inheritedGlobals_put]
    exact inEffect

/-- Where a build comes to an action, the defaults are those in effect in the end. -/
theorem SectionFirst.effective_of_builds (first : SectionFirst root.children) {name : String} {before later : List Element}
    (start : inheritedGlobals conf = .ok inherited) (split : root.children = before ++ e :: later) (tag : e.name = Tag.action)
    (builds : Builds b ⟨.empty name, conf, inherited, false⟩ before s) :
    Definition.effective b.inheritance inherited root.children = .ok s.globals := by
  have sofar : before.Sublist root.children := by rw [split]; exact List.sublist_append_left _ _
  rw [first.effective_before split tag]
  exact ((Traces.start b conf inherited name).builds start (first.undisturbed.sublist sofar) builds).globals

end WorkflowCompiler.Definition
