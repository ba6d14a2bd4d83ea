import WorkflowCompiler.Proofs.Dict
import WorkflowCompiler.Proofs.Fields
import WorkflowCompiler.Proofs.Markup.Text
import WorkflowCompiler.Site.Config

/-!
The normal form of the configuration of a site. Each reader gives values in normal form
only, and gives them back where it finds them written (`readEndpoint_ofText?`,
`readEntries_texts`, `readActionItems_actionValues`); so a configuration that was accepted
is in normal form (`normal_of_ofValue`) and is read back as it is (`ofValue_toValue`). A
registry has one entry for each type (`answers_withBuiltins`). Main statement:
`SiteConfig.ofValue_normal`.
-/
namespace WorkflowCompiler
open Site

/-- A text without blanks at its ends that is not empty. -/
def VisibleText (s : String) : Prop := Text.trim s = s ∧ s ≠ ""

/-- Keys that are not empty, none of them reserved, in the order of a mapping. -/
structure NormalKeys (d : Dict String) : Prop where
  named : "" ∉ d.keys
  unreserved : "__proto__" ∉ d.keys
  arranged : Arranged d.keys

/-- The normal form of the configuration of a site. -/
structure SiteConfig.Normal (c : SiteConfig) : Prop where
  nameNode : ∀ s, c.endpoints.nameNode = some s → VisibleText s
  jobTracker : ∀ s, c.endpoints.jobTracker = some s → VisibleText s
  keys : NormalKeys c.configuration
  distinct : (c.actions.map ActionType.type).Nodup
  named : "" ∉ c.actions.map ActionType.type

namespace Site
namespace Checked
variable {α β : Type}

theorem map_eq_ok {f : α → β} {a : Checked α} {b : β} : a.map f = .ok b ↔ ∃ x, a = .ok x ∧ f x = b := by
  obtain ⟨value, issues⟩ := a
  cases value <;> simp [map, ok, and_comm]

theorem and_eq_ok {f : Checked (α → β)} {a : Checked α} {b : β} :
    f.and a = .ok b ↔ ∃ g x, f = .ok g ∧ a = .ok x ∧ g x = b := by
  obtain ⟨value, issues⟩ := f
  obtain ⟨argument, others⟩ := a
  cases value <;> cases argument <;> simp [Checked.and, ok, and_comm, and_assoc, and_left_comm]

theorem fail_ne_ok {path : List String} {misfit : Misfit} {a : α} : fail path misfit ≠ ok a := nofun

end Checked

theorem refuse_ne_ok {α : Type} {path : List String} {expected : ValueKind} {v : Value} {a : α} :
    refuse path expected v ≠ Checked.ok a := by
  rw [refuse]
  split <;> exact Checked.fail_ne_ok

theorem readMapping_eq_ok {α : Type} {path : List String} {v : Value} {read : List (String × Value) → Checked α} {a : α}
    (accepted : readMapping path v read = .ok a) : ∃ fields, read fields = .ok a := by
  rw [readMapping] at accepted
  split at accepted
  · exact ⟨_, accepted⟩
  · exact absurd accepted refuse_ne_ok

theorem ne_empty_of_emptyIssues {path : List String} {s : String} (none : emptyIssues path s = []) : s ≠ "" := by
  rintro rfl
  cases none

/-! ### End points -/

theorem visibleText_of_nonBlank {value : Option String} {s : String} (read : Definition.nonBlank value = some s) : VisibleText s := by
  cases value with
  | none => cases read
  | some t =>
    rw [Definition.nonBlank] at read
    split at read
    · cases read
    · rename_i visible
      cases read
      refine ⟨?_, visible⟩
      rw [Text.trim, Text.trim, String.toList_ofList]
      exact congrArg String.ofList (Text.trimmed_trimChars _)

theorem nonBlank_of_visibleText {s : String} (visible : VisibleText s) : Definition.nonBlank (some s) = some s := by
  rw [Definition.nonBlank, visible.1, if_neg visible.2]

theorem visibleText_of_readEndpoint {path : List String} {v : Value} {e : Option String}
    (accepted : readEndpoint path v = .ok e) : ∀ s, e = some s → VisibleText s := by
  rintro s rfl
  unfold readEndpoint at accepted
  split at accepted
  · cases accepted
  · exact visibleText_of_nonBlank (Option.some.inj (congrArg Checked.value accepted))
  · exact absurd accepted refuse_ne_ok

theorem readEndpoint_ofText? (path : List String) {e : Option String} (visible : ∀ s, e = some s → VisibleText s) :
    readEndpoint path (Value.ofText? e) = .ok e := by
  cases e with
  | none => rfl
  | some s => rw [Value.ofText?, readEndpoint, nonBlank_of_visibleText (visible s rfl)]

/-! ### Configurations -/

theorem keys_of_readEntries {path : List String} {fields : List (String × Value)} {entries : List (String × String)}
    (accepted : readEntries path fields = .ok entries) :
    "" ∉ entries.map Prod.fst ∧ "__proto__" ∉ entries.map Prod.fst := by
  induction fields generalizing entries with
  | nil =>
    cases accepted
    exact ⟨List.not_mem_nil, List.not_mem_nil⟩
  | cons e rest ih =>
    obtain ⟨key, v⟩ := e
    obtain ⟨add, later, first, others, rfl⟩ := Checked.and_eq_ok.mp accepted
    obtain ⟨entry, read, rfl⟩ := Checked.map_eq_ok.mp first
    obtain ⟨named, unreserved⟩ := ih others
    have visible : key ≠ "" := ne_empty_of_emptyIssues (List.append_eq_nil_iff.mp (congrArg Checked.issues read)).1
    obtain ⟨s, -, rfl⟩ := Option.map_eq_some_iff.mp (congrArg Checked.value read)
    by_cases reserved : key = "__proto__"
    · simpa only [if_pos reserved] using ⟨named, unreserved⟩
    · simp only [if_neg reserved, List.map_cons, List.mem_cons, not_or]
      exact ⟨⟨visible.symm, named⟩, Ne.symm reserved, unreserved⟩

theorem readEntries_texts (path : List String) {entries : List (String × String)} (named : "" ∉ entries.map Prod.fst)
    (unreserved : "__proto__" ∉ entries.map Prod.fst) :
    readEntries path (entries.map fun e => (e.1, Value.text e.2)) = .ok entries := by
  induction entries with
  | nil => rfl
  | cons e rest ih =>
    obtain ⟨key, s⟩ := e
    simp only [List.map_cons, List.mem_cons, not_or] at named unreserved
    have later := ih named.2 unreserved.2
    rw [List.map_cons, readEntries, later]
    simp [readText, emptyIssues, Checked.map, Checked.and, Checked.ok, Ne.symm named.1, Ne.symm unreserved.1]

theorem entries_ofList_arrangeFields (entries : List (String × String)) :
    (Dict.ofList (arrangeFields entries)).entries = arrangeFields entries :=
  congrArg Dict.entries (Dict.ofList_entries ⟨arrangeFields entries, nodup_arrangeFields entries⟩)

theorem normalKeys_of_readSettings {path : List String} {v : Value} {d : Dict String} (accepted : readSettings path v = .ok d) :
    NormalKeys d := by
  unfold readSettings at accepted
  split at accepted
  · cases accepted
    exact ⟨List.not_mem_nil, List.not_mem_nil, List.Pairwise.nil⟩
  · obtain ⟨fields, read⟩ := readMapping_eq_ok accepted
    obtain ⟨entries, texts, rfl⟩ := Checked.map_eq_ok.mp read
    obtain ⟨named, unreserved⟩ := keys_of_readEntries texts
    have keys : (Dict.ofList (arrangeFields entries)).keys = (arrangeFields entries).map Prod.fst :=
      congrArg (List.map Prod.fst) (entries_ofList_arrangeFields entries)
    refine ⟨?_, ?_, ?_⟩
    · rw [keys]
      exact fun member => named (mem_keys_arrangeFields member)
    · rw [keys]
      exact fun member => unreserved (mem_keys_arrangeFields member)
    · rw [keys]
      exact arranged_arrangeFields entries

theorem readSettings_texts (path : List String) {d : Dict String} (normal : NormalKeys d) :
    readSettings path (.mapping (d.entries.map fun e => (e.1, Value.text e.2))) = .ok d := by
  have texts := readEntries_texts path normal.named normal.unreserved
  have arranged : arrangeFields d.entries = d.entries := arrangeFields_arranged normal.arranged d.distinct
  have whole : Dict.ofList (arrangeFields d.entries) = d := by rw [arranged, Dict.ofList_entries]
  rw [readSettings, readMapping]
  · simp only [Value.fields?, Value.ownFields?, Value.visible, Option.map_some, texts]
    exact Checked.map_eq_ok.mpr ⟨_, rfl, whole⟩
  · intro absent
    cases absent

/-! ### Action types -/

theorem type_of_readAction {path : List String} {v : Value} {t : ActionType} (accepted : readAction path v = .ok t) : t.type ≠ "" := by
  obtain ⟨fields, read⟩ := readMapping_eq_ok accepted
  obtain ⟨withFlags, supports, front, -, rfl⟩ := Checked.and_eq_ok.mp read
  obtain ⟨withName, requires, first, -, rfl⟩ := Checked.and_eq_ok.mp front
  obtain ⟨name, named, rfl⟩ := Checked.map_eq_ok.mp first
  unfold readName at named
  split at named
  · rw [← Option.some.inj (congrArg Checked.value named)]
    exact ne_empty_of_emptyIssues (congrArg Checked.issues named)
  · exact absurd named refuse_ne_ok

theorem readAction_actionValue (path : List String) {t : ActionType} (named : t.type ≠ "") :
    readAction path (SiteConfig.actionValue t) = .ok t := by
  have name (place : List String) : readName place (.text t.type) = .ok t.type := by
    rw [readName, emptyIssues, if_neg named]
    rfl
  refine Checked.and_eq_ok.mpr ⟨_, _, Checked.and_eq_ok.mpr ⟨_, _, Checked.map_eq_ok.mpr ⟨_, name _, rfl⟩, rfl, rfl⟩, rfl, rfl⟩

theorem types_of_readActionItems {path : List String} {index : Nat} {items : List Value} {types : List ActionType}
    (accepted : readActionItems path index items = .ok types) : "" ∉ types.map ActionType.type := by
  induction items generalizing index types with
  | nil =>
    cases accepted
    exact List.not_mem_nil
  | cons v rest ih =>
    obtain ⟨add, later, first, others, rfl⟩ := Checked.and_eq_ok.mp accepted
    obtain ⟨t, read, rfl⟩ := Checked.map_eq_ok.mp first
    rw [List.map_cons, List.mem_cons, not_or]
    exact ⟨(type_of_readAction read).symm, ih others⟩

theorem readActionItems_actionValues (path : List String) (index : Nat) {types : List ActionType}
    (named : "" ∉ types.map ActionType.type) : readActionItems path index (types.map SiteConfig.actionValue) = .ok types := by
  induction types generalizing index with
  | nil => rfl
  | cons t rest ih =>
    rw [List.map_cons, List.mem_cons, not_or] at named
    have first := readAction_actionValue (path ++ [toString index]) (Ne.symm named.1)
    exact Checked.and_eq_ok.mpr ⟨_, _, Checked.map_eq_ok.mpr ⟨t, first, rfl⟩, ih (index + 1) named.2, rfl⟩

theorem types_of_readActions {path : List String} {v : Value} {types : List ActionType}
    (accepted : readActions path v = .ok types) : "" ∉ types.map ActionType.type := by
  unfold readActions at accepted
  split at accepted
  · cases accepted
    exact List.not_mem_nil
  · exact types_of_readActionItems accepted
  · exact absurd accepted refuse_ne_ok

/-- No type is declared twice, or before. -/
theorem repeatIssues_eq_nil_iff {seen : List String} {index : Nat} {types : List ActionType} :
    repeatIssues seen index types = [] ↔ (types.map ActionType.type).Nodup ∧ ∀ t ∈ types, t.type ∉ seen := by
  induction types generalizing seen index with
  | nil => simp [repeatIssues]
  | cons t rest ih =>
    rw [repeatIssues, List.append_eq_nil_iff, ih, List.map_cons, List.nodup_cons, List.forall_mem_cons]
    by_cases before : t.type ∈ seen
    · simp [before]
    · simp only [before, if_false, true_and, not_false_eq_true, List.mem_cons, not_or, List.mem_map, not_exists, not_and]
      constructor
      · rintro ⟨distinct, fresh⟩
        exact ⟨⟨fun other member same => (fresh other member).1 same, distinct⟩, fun other member => (fresh other member).2⟩
      · rintro ⟨⟨first, distinct⟩, fresh⟩
        exact ⟨distinct, fun other member => ⟨first other member, fresh other member⟩⟩

/-! ### Whole configurations -/

theorem readLevel_text (path : List String) (level : LogLevel) : readLevel path (.text level.text) = .ok level := by
  simp only [readLevel, LogLevel.ofText?_text]

theorem normal_of_readDefaults {path : List String} {v : Value} {defaults : Definition.Endpoints × Dict String}
    (accepted : readDefaults path v = .ok defaults) :
    (∀ s, defaults.1.nameNode = some s → VisibleText s) ∧ (∀ s, defaults.1.jobTracker = some s → VisibleText s) ∧
      NormalKeys defaults.2 := by
  unfold readDefaults at accepted
  split at accepted
  · cases accepted
    exact ⟨nofun, nofun, List.not_mem_nil, List.not_mem_nil, List.Pairwise.nil⟩
  · obtain ⟨fields, read⟩ := readMapping_eq_ok accepted
    obtain ⟨withEndpoints, d, front, settings, rfl⟩ := Checked.and_eq_ok.mp read
    obtain ⟨withNameNode, jobTracker, first, second, rfl⟩ := Checked.and_eq_ok.mp front
    obtain ⟨nameNode, named, rfl⟩ := Checked.map_eq_ok.mp first
    exact ⟨visibleText_of_readEndpoint named, visibleText_of_readEndpoint second, normalKeys_of_readSettings settings⟩

end Site

namespace SiteConfig

theorem ofValue_eq_ok {v : Value} {c : SiteConfig} :
    ofValue v = .ok c ↔ readSite v = .ok c ∧ (c.actions.map ActionType.type).Nodup := by
  rw [ofValue]
  rcases readSite v with ⟨_ | site, issues⟩
  · simp [Checked.ok]
  · have distinct : repeatIssues [] 0 site.actions = [] ↔ (site.actions.map ActionType.type).Nodup := by
      rw [repeatIssues_eq_nil_iff]
      simp
    constructor
    · intro accepted
      dsimp only at accepted
      split at accepted
      · rename_i none
        obtain ⟨rfl, once⟩ := List.append_eq_nil_iff.mp none
        cases accepted
        exact ⟨rfl, distinct.mp once⟩
      · cases accepted
    · rintro ⟨read, nodup⟩
      cases read
      simp only [List.nil_append, distinct.mpr nodup]

theorem normal_of_ofValue {v : Value} {c : SiteConfig} (accepted : ofValue v = .ok c) : c.Normal := by
  obtain ⟨read, distinct⟩ := ofValue_eq_ok.mp accepted
  obtain ⟨fields, parts⟩ := readMapping_eq_ok read
  obtain ⟨withActions, level, front, -, rfl⟩ := Checked.and_eq_ok.mp parts
  obtain ⟨withValidation, actions, inner, types, rfl⟩ := Checked.and_eq_ok.mp front
  obtain ⟨withDefaults, checksForkJoin, innermost, -, rfl⟩ := Checked.and_eq_ok.mp inner
  obtain ⟨defaults, settings, rfl⟩ := Checked.map_eq_ok.mp innermost
  obtain ⟨nameNode, jobTracker, keys⟩ := normal_of_readDefaults settings
  exact ⟨nameNode, jobTracker, keys, distinct, types_of_readActions types⟩

/-- The fields of the defaults. -/
def defaultsFields (endpoints : Definition.Endpoints) (configuration : Dict String) : List (String × Value) :=
  optionalField "nameNode" endpoints.nameNode ++ optionalField "jobTracker" endpoints.jobTracker ++
    [("configuration", .mapping (configuration.entries.map fun e => (e.1, .text e.2)))]

theorem readDefaults_defaultsFields (path : List String) {endpoints : Definition.Endpoints} {configuration : Dict String}
    (nameNode : ∀ s, endpoints.nameNode = some s → VisibleText s) (jobTracker : ∀ s, endpoints.jobTracker = some s → VisibleText s)
    (keys : NormalKeys configuration) :
    readDefaults path (.mapping (defaultsFields endpoints configuration)) = .ok (endpoints, configuration) := by
  obtain ⟨first, second⟩ := endpoints
  have nameField : Value.field (defaultsFields ⟨first, second⟩ configuration) "nameNode" = Value.ofText? first := by
    cases first <;> cases second <;> rfl
  have trackerField : Value.field (defaultsFields ⟨first, second⟩ configuration) "jobTracker" = Value.ofText? second := by
    cases first <;> cases second <;> rfl
  have settingsField : Value.field (defaultsFields ⟨first, second⟩ configuration) "configuration" =
      .mapping (configuration.entries.map fun e => (e.1, .text e.2)) := by
    cases first <;> cases second <;> rfl
  rw [readDefaults, readMapping]
  · simp only [Value.fields?, Value.ownFields?, Value.visible, Option.map_some, nameField, trackerField, settingsField]
    have name := readEndpoint_ofText? (path ++ ["nameNode"]) nameNode
    have tracker := readEndpoint_ofText? (path ++ ["jobTracker"]) jobTracker
    have settings := readSettings_texts (path ++ ["configuration"]) keys
    exact Checked.and_eq_ok.mpr ⟨_, _, Checked.and_eq_ok.mpr ⟨_, _, Checked.map_eq_ok.mpr ⟨_, name, rfl⟩, tracker, rfl⟩, settings, rfl⟩
  · intro absent
    cases absent

/-- A configuration in normal form is read back as it is. -/
theorem ofValue_toValue {c : SiteConfig} (normal : c.Normal) : ofValue c.toValue = .ok c := by
  refine ofValue_eq_ok.mpr ⟨?_, normal.distinct⟩
  have defaults := readDefaults_defaultsFields ["defaults"] normal.nameNode normal.jobTracker normal.keys
  have actions : readActions ["actions"] (.list (c.actions.map actionValue)) = .ok c.actions :=
    readActionItems_actionValues ["actions"] 0 normal.named
  have level := readLevel_text ["logLevel"] c.logLevel
  have validation : readValidation ["validation"] (.mapping [("forkJoin", .bool c.checksForkJoin)]) = .ok c.checksForkJoin := rfl
  exact Checked.and_eq_ok.mpr ⟨_, _, Checked.and_eq_ok.mpr ⟨_, _, Checked.and_eq_ok.mpr
    ⟨_, _, Checked.map_eq_ok.mpr ⟨_, defaults, rfl⟩, validation, rfl⟩, actions, rfl⟩, level, rfl⟩

end SiteConfig

/-! ### Registries -/

namespace Registry

/-- A registry of the built-in types and of those that a site adds: each type has one entry, that of
    the site if it has one. -/
structure Answers (r : Registry) (actions : List ActionType) : Prop where
  configured : ∀ t ∈ actions, r.get? t.type = some t
  builtin : ∀ t ∈ builtinActionTypes, t.type ∉ actions.map ActionType.type → r.get? t.type = some t
  once : (r.toList.map ActionType.type).Nodup
  all : ∀ type, type ∈ r.toList.map ActionType.type ↔ type ∈ (builtinActionTypes ++ actions).map ActionType.type

theorem types_toList (types : List ActionType) : (ofList types).toList.map ActionType.type = (ofList types).types.keys := by
  rw [toList, List.map_map, Dict.keys]
  refine List.map_congr_left fun e member => ?_
  rcases Dict.mem_putAll member with added | none
  · obtain ⟨t, -, rfl⟩ := List.mem_map.mp added
    rfl
  · cases none

theorem get?_ofList (types : List ActionType) (type : String) :
    (ofList types).get? type = (types.map fun t => (t.type, t)).reverse.lookup type := by
  rw [get?, ofList, Dict.ofList, Dict.get?_putAll_last, Dict.get?_empty, Option.or_none]

/-- Of types with different names, each is found under its name. -/
theorem lookup_types {types : List ActionType} (distinct : (types.map ActionType.type).Nodup) {t : ActionType} (member : t ∈ types) :
    (types.map fun t => (t.type, t)).reverse.lookup t.type = some t := by
  refine lookup_eq_some_of_mem (e := (t.type, t)) ?_ (List.mem_reverse.mpr (List.mem_map_of_mem member))
  rw [List.map_reverse, List.map_map, List.nodup_reverse]
  exact distinct

theorem answers_withBuiltins {actions : List ActionType} (distinct : (actions.map ActionType.type).Nodup) :
    (withBuiltins actions).Answers actions := by
  have found (type : String) : (withBuiltins actions).get? type =
      ((actions.map fun t => (t.type, t)).reverse.lookup type).or
        ((builtinActionTypes.map fun t => (t.type, t)).reverse.lookup type) := by
    rw [withBuiltins, get?_ofList, List.map_append, List.reverse_append, List.lookup_append]
  refine ⟨fun t member => ?_, fun t member other => ?_, ?_, fun type => ?_⟩
  · rw [found, lookup_types distinct member, Option.some_or]
  · have none : (actions.map fun t => (t.type, t)).reverse.lookup t.type = Option.none := by
      refine lookup_eq_none_of_not_mem ?_
      rw [List.map_reverse, List.mem_reverse, List.map_map]
      exact other
    rw [found, none, Option.none_or, lookup_types (by decide) member]
  · rw [withBuiltins, types_toList]
    exact Dict.nodup_keys _
  · rw [withBuiltins, types_toList, ofList, Dict.ofList, Dict.mem_keys_putAll, List.map_map]
    simp

end Registry

/-- A configuration that is accepted is in normal form, is read back as it is, and has a registry
    that answers with its types and with the built-in ones that it does not replace. -/
theorem SiteConfig.ofValue_normal {v : Value} {c : SiteConfig} (accepted : ofValue v = .ok c) :
    c.Normal ∧ ofValue c.toValue = .ok c ∧ (Registry.withBuiltins c.actions).Answers c.actions := by
  have normal := normal_of_ofValue accepted
  exact ⟨normal, ofValue_toValue normal, Registry.answers_withBuiltins normal.distinct⟩

/-- Padded and blank end points, keys that are indices, a reserved one, and fields that nobody knows. -/
def untidySite : Value :=
  .mapping
    [("defaults", .mapping
        [("jobTracker", .text " \t"), ("nameNode", .text " nn "),
          ("configuration", .mapping [("queue", .text " q "), ("7", .text "b"), ("__proto__", .text "c"), ("0", .text "a")])]),
      ("owner", .null),
      ("actions", .list
        [.mapping [("type", .text "teleport"), ("range", .null)],
          .mapping [("type", .text "fs"), ("requiresEndpoints", .bool true)]])]

def tidySite : SiteConfig :=
  { endpoints := ⟨some "nn", none⟩
    configuration := Dict.ofList [("0", "a"), ("7", "b"), ("queue", " q ")]
    actions := [⟨"teleport", false, false⟩, ⟨"fs", true, false⟩] }

theorem SiteConfig.ofValue_normal_tidied :
    ofValue untidySite = .ok tidySite ∧ tidySite.Normal ∧ ofValue tidySite.toValue = .ok tidySite ∧
      (Registry.withBuiltins tidySite.actions).Answers tidySite.actions := by
  have accepted : ofValue untidySite = .ok tidySite := by decide
  exact ⟨accepted, ofValue_normal accepted⟩

end WorkflowCompiler
