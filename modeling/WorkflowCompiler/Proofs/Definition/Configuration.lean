import WorkflowCompiler.Proofs.Definition.Inheritance
import WorkflowCompiler.Proofs.Globals.Blob
import WorkflowCompiler.Proofs.Markup.Trees

/-!
Configurations that markup gives back as they were written: their keys are not
empty, and neither keys nor values change when they are read (`CleanConfiguration`).
Such a configuration is read back from its element (`readConfiguration_reread`).
Whatever a definition that was parsed or a clean layer contributes is clean, and
a build keeps the defaults clean, those it has and those it hands on
(`CleanState.builds`).
-/
namespace WorkflowCompiler.Definition
open Markup (Element CleanText Settled SimpleName Printable Faithful)

/-- Nothing in a configuration changes when it is printed and read. -/
def CleanConfiguration (d : Dict String) : Prop := ∀ e ∈ d.entries, e.1 ≠ "" ∧ CleanText e.1 ∧ CleanText e.2

instance (d : Dict String) : Decidable (CleanConfiguration d) := inferInstanceAs (Decidable (∀ e ∈ d.entries, _))

namespace CleanConfiguration
variable {d lower upper : Dict String}

theorem empty : CleanConfiguration .empty := List.forall_mem_nil _

theorem put (clean : CleanConfiguration d) {key value : String} (named : key ≠ "") (cleanKey : CleanText key)
    (cleanValue : CleanText value) : CleanConfiguration (d.put key value) := by
  intro e member
  rcases mem_putEntry member with rfl | earlier
  · exact ⟨named, cleanKey, cleanValue⟩
  · exact clean e earlier

theorem overlay (below : CleanConfiguration lower) (above : CleanConfiguration upper) :
    CleanConfiguration (lower.overlay upper) := by
  have written : ∀ es : List (String × String), (∀ e ∈ es, e.1 ≠ "" ∧ CleanText e.1 ∧ CleanText e.2) →
      ∀ d : Dict String, CleanConfiguration d → CleanConfiguration (d.putAll es) := by
    intro es each
    induction es with
    | nil => exact fun _ clean => clean
    | cons e rest ih =>
      obtain ⟨⟨named, key, value⟩, others⟩ := List.forall_mem_cons.mp each
      exact fun d clean => ih others _ (clean.put named key value)
  exact written upper.entries above lower below

theorem stack {layers : List (Dict String)} (each : ∀ d ∈ layers, CleanConfiguration d) : CleanConfiguration (.stack layers) := by
  induction layers using List.reverseRecOn with
  | nil => exact empty
  | append_singleton layers top ih =>
    rw [Dict.stack_append]
    refine (ih fun d member => each d (List.mem_append_left _ member)).overlay (each top ?_)
    exact List.mem_append_right _ (List.mem_singleton_self top)

end CleanConfiguration

/-! ### Reading configurations -/

theorem childText?_of_settled {e : Element} (settled : e.Every Settled) {name text : String}
    (present : e.childText? name = some text) : CleanText text := by
  obtain ⟨c, found, rfl⟩ := Option.map_eq_some_iff.mp present
  have here := (settled.inside c (List.mem_of_find?_eq_some found)).here
  exact ⟨here.trimmed, here.unbroken⟩

theorem readProperties_clean {owner : String} {properties : List Element} (settled : ∀ p ∈ properties, p.Every Settled)
    {before after : Dict String} (clean : CleanConfiguration before)
    (read : readProperties owner before properties = .ok after) : CleanConfiguration after := by
  induction properties generalizing before with
  | nil =>
    cases read
    exact clean
  | cons p rest ih =>
    obtain ⟨first, others⟩ := List.forall_mem_cons.mp settled
    unfold readProperties at read
    split at read
    · cases read
    · rename_i name named
      split at read
      · cases read
      · rename_i filled
        split at read
        · exact ih others clean read
        · rename_i value valued
          exact ih others (clean.put filled (childText?_of_settled first named) (childText?_of_settled first valued)) read

/-- What a parsed tree configures is clean. -/
theorem readConfiguration_clean {e : Element} (settled : e.Every Settled) {d : Dict String}
    (read : readConfiguration e = .ok d) : CleanConfiguration d :=
  readProperties_clean (fun p member => settled.inside p (List.mem_of_mem_filter member)) .empty read

theorem ownConfiguration_clean {e : Element} (settled : e.Every Settled) {d : Dict String}
    (read : ownConfiguration e = .ok d) : CleanConfiguration d := by
  unfold ownConfiguration at read
  split at read
  · cases read
    exact .empty
  · rename_i own present
    exact readConfiguration_clean (settled.inside own (List.mem_of_find?_eq_some present)) read

theorem readProperties_propertyElement (owner : String) (d : Dict String) {entries : List (String × String)}
    (named : ∀ e ∈ entries, e.1 ≠ "") :
    readProperties owner d (entries.map fun e => propertyElement e.1 e.2) = .ok (d.putAll entries) := by
  induction entries generalizing d with
  | nil => rfl
  | cons e rest ih =>
    obtain ⟨filled, others⟩ := List.forall_mem_cons.mp named
    have name : (propertyElement e.1 e.2).childText? Tag.propertyName = some e.1 := rfl
    have value : (propertyElement e.1 e.2).childText? Tag.propertyValue = some e.2 := rfl
    rw [List.map_cons, readProperties, name]
    simp only [if_neg filled, value]
    exact ih _ others

theorem properties_configurationElement (d : Dict String) :
    (configurationElement d).childrenNamed Tag.property = d.entries.map fun e => propertyElement e.1 e.2 := by
  rw [Element.childrenNamed, List.filter_eq_self.mpr]
  · rfl
  · intro c member
    obtain ⟨e, _, rfl⟩ := List.mem_map.mp member
    rfl

/-- Every property has a name. -/
def Named (d : Dict String) : Prop := ∀ e ∈ d.entries, e.1 ≠ ""

/-- The element of a configuration says what it was made of. -/
theorem readConfiguration_of_named {d : Dict String} (named : Named d) : readConfiguration (configurationElement d) = .ok d := by
  rw [readConfiguration, properties_configurationElement, readProperties_propertyElement _ _ named]
  exact congrArg Except.ok d.ofList_entries

theorem readConfiguration_configurationElement {d : Dict String} (clean : CleanConfiguration d) :
    readConfiguration (configurationElement d) = .ok d :=
  readConfiguration_of_named fun e member => (clean e member).1

/-! ### Printing configurations -/

theorem every_ofText {p : Element → Prop} {name text : String} (here : p (.ofText name text)) : (Element.ofText name text).Every p :=
  .intro here (List.forall_mem_nil _)

theorem every_configurationElement {p : Element → Prop} {d : Dict String} (whole : p (configurationElement d))
    (each : ∀ e ∈ d.entries, p (propertyElement e.1 e.2) ∧ p (.ofText Tag.propertyName e.1) ∧ p (.ofText Tag.propertyValue e.2)) :
    (configurationElement d).Every p := by
  refine .intro whole fun c member => ?_
  obtain ⟨e, inside, rfl⟩ := List.mem_map.mp member
  obtain ⟨entry, name, value⟩ := each e inside
  refine .intro entry fun c member => ?_
  rcases List.mem_cons.mp member with rfl | member
  · exact every_ofText name
  · rw [List.mem_singleton.mp member]
    exact every_ofText value

/-- A configuration is read as it was printed. -/
theorem reread_configurationElement {d : Dict String} (clean : CleanConfiguration d) :
    (configurationElement d).reread = configurationElement d := by
  have blank : CleanText "" := by decide
  refine Element.reread_of_faithful (every_configurationElement ⟨blank, List.forall_mem_nil _⟩ fun e member => ?_)
  obtain ⟨_, key, value⟩ := clean e member
  exact ⟨⟨blank, List.forall_mem_nil _⟩, ⟨key, List.forall_mem_nil _⟩, ⟨value, List.forall_mem_nil _⟩⟩

theorem printable_ofText {name : String} (simple : SimpleName name) (text : String) : Printable (.ofText name text) where
  name := simple
  keys := List.forall_mem_nil _
  kept := List.forall_mem_nil _
  distinct := List.nodup_nil
  joined contrary := absurd rfl contrary

theorem printable_configurationElement (d : Dict String) : (configurationElement d).Every Printable := by
  have simple {name : String} (simple : SimpleName name) (children : List Element) :
      Printable { name, children : Element } :=
    ⟨simple, List.forall_mem_nil _, List.forall_mem_nil _, List.nodup_nil, fun _ => (by decide : '\r' ∉ "".toList)⟩
  refine every_configurationElement (simple (by decide) _) fun e _ => ⟨simple (by decide) _, ?_, ?_⟩
  · exact printable_ofText (by decide) e.1
  · exact printable_ofText (by decide) e.2

theorem depth_le {e : Element} {room : Nat} (each : ∀ c ∈ e.children, c.depth ≤ room) : e.depth ≤ room + 1 := by
  obtain ⟨name, attributes, text, children⟩ := e
  rw [Element.depth]
  split
  · exact Nat.zero_le _
  · exact Nat.succ_le_succ (Markup.depthOf_le each)

theorem depth_ofText (name text : String) : (Element.ofText name text).depth ≤ 1 := depth_le (List.forall_mem_nil _)

theorem depth_configurationElement (d : Dict String) : (configurationElement d).depth ≤ 3 := by
  refine depth_le fun c member => ?_
  obtain ⟨e, _, rfl⟩ := List.mem_map.mp member
  refine depth_le fun c member => ?_
  rcases List.mem_cons.mp member with rfl | member
  · exact depth_ofText _ _
  · rw [List.mem_singleton.mp member]
    exact depth_ofText _ _

/-! ### Elements that have inherited -/

/-- An element whose names markup gives back. -/
structure SimpleNames (e : Element) : Prop where
  name : SimpleName e.name
  keys : ∀ a ∈ e.attributes, SimpleName a.1

instance (e : Element) : Decidable (SimpleNames e) :=
  decidable_of_iff (SimpleName e.name ∧ ∀ a ∈ e.attributes, SimpleName a.1)
    ⟨fun both => ⟨both.1, both.2⟩, fun simple => ⟨simple.name, simple.keys⟩⟩

theorem printable_of_settled {e : Element} (simple : SimpleNames e) (settled : Settled e) : Printable e where
  name := simple.name
  keys := simple.keys
  kept a member := settled.attributes.kept a.1 (List.mem_map_of_mem member)
  distinct := settled.attributes.distinct
  joined _ := settled.unbroken

theorem mem_depthOf {c : Element} {es : List Element} (member : c ∈ es) : c.depth ≤ Element.depthOf es := by
  induction es with
  | nil => cases member
  | cons e rest ih =>
    rw [Element.depthOf]
    rcases List.mem_cons.mp member with rfl | later
    · exact Nat.le_max_left _ _
    · exact (ih later).trans (Nat.le_max_right _ _)

theorem depth_child {c e : Element} (member : c ∈ e.children) : c.depth + 1 ≤ e.depth := by
  obtain ⟨name, attributes, text, children⟩ := e
  rw [Element.depth, if_neg fun empty => by rw [List.isEmpty_iff.mp empty.2] at member; cases member]
  exact Nat.succ_le_succ (mem_depthOf member)

section
variable {i : Inheritance} {globals : Option GlobalDefaults} {layer : Option (Dict String)} {e filled : Element}

theorem Inherits.printable (inherits : Inherits i globals layer e filled) (simple : e.Every SimpleNames)
    (settled : e.Every Settled) : filled.Every Printable := by
  have printable := (simple.and settled).imp fun _ both => printable_of_settled both.1 both.2
  have here := printable.here
  have broken : filled.children ≠ [] → '\r' ∉ filled.text.toList := fun _ => by
    rw [inherits.text]
    exact settled.here.unbroken
  refine .intro ⟨inherits.name ▸ here.name, inherits.attributes ▸ here.keys, inherits.attributes ▸ here.kept,
    inherits.attributes ▸ here.distinct, broken⟩ fun c member => ?_
  rcases inherits.children c member with own | ⟨field, inherited, value, rfl⟩ | ⟨own, _, rfl⟩
  · exact printable.inside c own
  · have simple : ∀ field ∈ inheritedFields, SimpleName field := by decide
    exact every_ofText (printable_ofText (simple field inherited) value)
  · exact printable_configurationElement _

theorem Inherits.depth (inherits : Inherits i globals layer e filled) {room : Nat} (flat : e.depth ≤ room + 1) (some : 3 ≤ room) :
    filled.depth ≤ room + 1 := by
  refine depth_le fun c member => ?_
  rcases inherits.children c member with own | ⟨field, _, value, rfl⟩ | ⟨own, _, rfl⟩
  · have := depth_child own
    omega
  · exact (depth_ofText _ _).trans (by omega)
  · exact (depth_configurationElement _).trans some

end

/-! ### Defaults through a build -/

/-- Global defaults, if there are some, with a clean configuration. -/
def CleanGlobals (globals : Option GlobalDefaults) : Prop :=
  ∀ d, globals.bind GlobalDefaults.configuration = some d → CleanConfiguration d

/-- The defaults of a state are clean, and so are those that its job configuration hands down. -/
structure CleanState (s : BuildState) : Prop where
  globals : CleanGlobals s.globals
  handed : ∀ blob g, s.conf.get? globalsKey = some blob → GlobalDefaults.decode blob = .ok g → CleanGlobals (some g)

theorem CleanGlobals.layers {globals : Option GlobalDefaults} (clean : CleanGlobals globals) {layer : Option (Dict String)}
    (bottom : CleanConfiguration (layer.getD .empty)) {own : Dict String} (top : CleanConfiguration own) :
    CleanConfiguration (.stack (configurationLayers layer globals own)) := by
  refine .stack ?_
  have middle : CleanConfiguration ((globals.bind GlobalDefaults.configuration).getD .empty) := by
    cases configured : globals.bind GlobalDefaults.configuration with
    | none => exact .empty
    | some d => exact clean d configured
  rw [configurationLayers]
  exact List.forall_mem_cons.mpr ⟨bottom, List.forall_mem_cons.mpr ⟨middle, List.forall_mem_singleton.mpr top⟩⟩

theorem ofSection_configuration {e : Element} {g : GlobalDefaults} (read : GlobalDefaults.ofSection e = .ok g) {d : Dict String}
    (configured : g.configuration = some d) : ∃ c, e.child? Tag.configuration = some c ∧ readConfiguration c = .ok d := by
  unfold GlobalDefaults.ofSection at read
  dsimp only at read
  split at read
  · cases read
    cases configured
  · rename_i c present
    obtain ⟨own, found, rfl⟩ := Except.map_eq_ok read
    cases configured
    exact ⟨c, present, found⟩

namespace CleanState
variable {b : Builder} {s t : BuildState} {e : Element}

/-- A build starts with the defaults that its job configuration hands down. -/
theorem start {conf : Dict String} (inherited : ∀ globals, inheritedGlobals conf = .ok globals → CleanGlobals globals)
    {globals : Option GlobalDefaults} (handed : inheritedGlobals conf = .ok globals) (name : String) :
    CleanState ⟨.empty name, conf, globals, false⟩ := by
  refine ⟨inherited globals handed, fun blob g present decoded => inherited (some g) ?_⟩
  have entry : conf.get? globalsKey = some blob := present
  rw [inheritedGlobals, entry]
  exact congrArg (Except.map some) decoded

theorem propagate (clean : CleanState s) (c : Element) : CleanState (propagate s c) := by
  unfold Definition.propagate
  split
  · exact clean
  · rename_i g present
    split
    · refine ⟨clean.globals, fun blob h handed decoded => ?_⟩
      have same : blob = g.encode := by
        rw [Dict.get?_put, if_pos rfl] at handed
        exact (Option.some.inj handed).symm
      rw [same, GlobalDefaults.decode_eq_ok, GlobalDefaults.decode?_encode] at decoded
      rw [← decoded, ← present]
      exact clean.globals
    · exact clean

theorem readsChild (clean : CleanState s) {b : Builder} {node : String} {draft after : ActionDraft}
    (reads : ReadsChild b node s draft e t after) : CleanState t := by
  cases reads with
  | type => exact clean.propagate e
  | _ => exact clean

theorem readAction (clean : CleanState s) {b : Builder} {node : String} {draft after : ActionDraft} {children : List Element}
    (read : readAction b node s draft children = .succeed t after) : CleanState t := by
  induction children generalizing s draft with
  | nil =>
    cases read
    exact clean
  | cons c rest ih =>
    obtain ⟨mid, next, first, onward⟩ := readAction_cons_iff.mp read
    exact ih (clean.readsChild first) onward

theorem actionNode (clean : CleanState s) {n : Node} (read : actionNode b s e = .succeed t n) : CleanState t := by
  obtain ⟨node, draft, _, children, _⟩ := actionNode_iff.mp read
  exact clean.readAction children

theorem applyGlobals (clean : CleanState s) (tag : e.name = Tag.globals) (settled : e.Every Settled)
    (applied : applyGlobals b s e = .ok t) : CleanState t := by
  obtain ⟨filled, g, read, rfl, source⟩ := applyGlobals_eq_ok applied
  refine ⟨fun d configured => ?_, clean.handed⟩
  obtain ⟨c, present, configuration⟩ := ofSection_configuration read configured
  cases handed : s.conf.get? globalsKey with
  | none =>
    simp only [handed] at source
    subst source
    exact readConfiguration_clean (settled.inside c (List.mem_of_find?_eq_some present)) configuration
  | some blob =>
    simp only [handed] at source
    obtain ⟨inherited, decoded, done⟩ := source
    obtain ⟨own, found, written⟩ := (inherits_of_inherit done).configuration (by rw [tag]; rfl)
    have lowest : CleanConfiguration ((none : Option (Dict String)).getD .empty) := .empty
    have layers := (clean.handed blob inherited handed decoded).layers lowest (ownConfiguration_clean settled found)
    rw [written] at present
    cases present
    rw [readConfiguration_configurationElement layers] at configuration
    cases configuration
    exact layers

theorem reads (clean : CleanState s) (settled : e.Every Settled) (reads : Reads b s e t) : CleanState t := by
  cases reads with
  | node _ _ => exact ⟨clean.globals, clean.handed⟩
  | action _ read _ =>
    have after := clean.actionNode read
    exact ⟨after.globals, after.handed⟩
  | globals tag applied => exact clean.applyGlobals tag settled applied
  | passed _ => exact clean

/-- Reading a definition keeps the defaults clean. -/
theorem builds {elements : List Element} (clean : CleanState s) (settled : ∀ e ∈ elements, e.Every Settled)
    (builds : Builds b s elements t) : CleanState t := by
  induction builds with
  | done => exact clean
  | step first _ ih =>
    obtain ⟨here, others⟩ := List.forall_mem_cons.mp settled
    exact ih (clean.reads here first) others

end CleanState
end WorkflowCompiler.Definition
