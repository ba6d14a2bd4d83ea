import WorkflowCompiler.Proofs.Fields
import WorkflowCompiler.Site.Merge

/-!
One layer of settings written over another. What stands under a name afterwards depends
only on what both layers have under it (`Overlays`), and so, step by step, does what is
found along a path of names: the upper layer wins wherever it has a value that is no
mapping (`along_overlaid_upper`), the lower one counts wherever the upper one leaves it
open (`along_overlaid`), and there is nothing else (`along_of_overlaid`). A layer that was
written already changes nothing when it is written again (`overlaid_again`). Together this
is the law of layers, `merge_laidOver`.
-/
namespace WorkflowCompiler.Site

/-- Settings at any depth: the fields of a mapping have different names, none of them the reserved
    one. What a list holds does not matter. -/
inductive Settings : Value → Prop
  | mapping {fields : List (String × Value)} (distinct : (fields.map Prod.fst).Nodup)
      (unreserved : baseField ∉ fields.map Prod.fst) (each : ∀ e ∈ fields, Settings e.2) : Settings (.mapping fields)
  | other {v : Value} (single : v.ownFields? = none) : Settings v

/-- A value that is there and has no fields of its own. -/
def Decisive (v : Value) : Prop := v ≠ .absent ∧ v.ownFields? = none

/-- What is found along a path of names; every step leads into a mapping. -/
def along? : List String → Value → Option Value
  | [], v => some v
  | key :: path, .mapping fields => (fields.lookup key).bind (along? path)
  | _ :: _, _ => none

/-- An upper layer leaves a path to the layer below: it has no value there, and no value that is no
    mapping on the way. -/
structure LeavesOpen (upper : Value) (path : List String) : Prop where
  unset : ∀ v, along? path upper = some v → v = .absent
  through : ∀ before, before <+: path → before ≠ path → ∀ v, along? before upper = some v → ¬ Decisive v

/-! ### Under one name -/

/-- What stands under a name when a layer that has `above` under it is written over one that has
    `below`. -/
def overlaid (below : Option Value) : Option Value → Option Value
  | none | some .absent => below
  | some (.mapping new) =>
    match below.bind Value.ownFields? with
    | some old => some (merge old new).toValue
    | none => some (.mapping new)
  | some v => some v

theorem Decisive.ne_mapping {v : Value} (decisive : Decisive v) (fields : List (String × Value)) : v ≠ .mapping fields := by
  rintro rfl
  cases decisive.2

theorem Decisive.ne_derived {v : Value} (decisive : Decisive v) (fields : List (String × Value)) (base : Value) :
    v ≠ .derived fields base := by
  rintro rfl
  cases decisive.2

theorem overlaid_decisive {v : Value} (decisive : Decisive v) (below : Option Value) : overlaid below (some v) = some v := by
  rw [overlaid]
  · exact decisive.1
  · exact decisive.ne_mapping

theorem overlaid_mapping {below : Option Value} (single : below.bind Value.ownFields? = none) (new : List (String × Value)) :
    overlaid below (some (.mapping new)) = some (.mapping new) := by
  simp only [overlaid, single]

/-- A value of settings is absent, a mapping or decisive. -/
theorem Settings.cases {v : Value} (settings : Settings v) :
    v = .absent ∨ (∃ fields, v = .mapping fields) ∨ Decisive v := by
  cases settings with
  | mapping distinct unreserved each => exact .inr (.inl ⟨_, rfl⟩)
  | other single =>
    by_cases absent : v = .absent
    · exact .inl absent
    · exact .inr (.inr ⟨absent, single⟩)

theorem write_unreserved {key : String} (named : key ≠ baseField) (own : List (String × Value)) (v : Value) :
    (Layered.mk own .absent).write key v = ⟨putField key v own, .absent⟩ := by
  have plain : (Layered.mk own .absent).isBase key = false := by simp [Layered.isBase, named]
  rw [Layered.write, plain]
  rfl

theorem below_unreserved {key : String} (named : key ≠ baseField) (own : List (String × Value)) :
    (Layered.mk own .absent).below key = Value.field own key := by
  have plain : (Layered.mk own .absent).isBase key = false := by simp [Layered.isBase, named]
  rw [Layered.below, plain]
  rfl

theorem ownFields?_field (own : List (String × Value)) (key : String) :
    (Value.field own key).ownFields? = (own.lookup key).bind Value.ownFields? := by
  rw [Value.field]
  cases own.lookup key <;> rfl

theorem mergeField_decisive {v : Value} (decisive : Decisive v) (lower : Layered) (key : String) :
    mergeField lower key v = lower.write key v := by
  rw [mergeField]
  · exact decisive.1
  · exact decisive.ne_mapping
  · exact decisive.ne_derived

/-- A field with a value is written with what then stands under its name. -/
theorem mergeField_present {key : String} {v w : Value} {own : List (String × Value)} (named : key ≠ baseField)
    (settings : Settings v) (present : v ≠ .absent) (result : overlaid (own.lookup key) (some v) = some w) :
    mergeField ⟨own, .absent⟩ key v = ⟨putField key w own, .absent⟩ := by
  rcases settings.cases with absent | ⟨new, rfl⟩ | decisive
  · exact absurd absent present
  · rw [mergeField, below_unreserved named, ownFields?_field]
    cases found : (own.lookup key).bind Value.ownFields? with
    | some old =>
      simp only [overlaid, found] at result
      cases result
      exact write_unreserved named own _
    | none =>
      simp only [overlaid, found] at result
      cases result
      exact write_unreserved named own _
  · rw [overlaid_decisive decisive] at result
    cases result
    rw [mergeField_decisive decisive]
    exact write_unreserved named own v

theorem overlaid_present {v : Value} (present : v ≠ .absent) (below : Option Value) : ∃ w, overlaid below (some v) = some w := by
  cases v with
  | absent => exact absurd rfl present
  | mapping new =>
    cases found : below.bind Value.ownFields? with
    | none => exact ⟨_, overlaid_mapping found new⟩
    | some old => exact ⟨(merge old new).toValue, by simp only [overlaid, found]⟩
  | _ => exact ⟨_, rfl⟩

/-- What a layer is after another one was written over it, name by name. -/
structure Overlays (lower upper merged : List (String × Value)) : Prop where
  run : merge lower upper = ⟨merged, .absent⟩
  values : ∀ key, merged.lookup key = overlaid (lower.lookup key) (upper.lookup key)
  distinct : (lower.map Prod.fst).Nodup → (merged.map Prod.fst).Nodup
  unreserved : baseField ∉ lower.map Prod.fst → baseField ∉ merged.map Prod.fst

theorem exists_overlays {upper : List (String × Value)} (distinct : (upper.map Prod.fst).Nodup)
    (unreserved : baseField ∉ upper.map Prod.fst) (each : ∀ e ∈ upper, Settings e.2) (lower : List (String × Value)) :
    ∃ merged, Overlays lower upper merged := by
  induction upper generalizing lower with
  | nil => exact ⟨lower, by rw [merge, mergeFields], fun key => rfl, id, id⟩
  | cons e rest ih =>
    obtain ⟨key, v⟩ := e
    rw [List.map_cons, List.nodup_cons] at distinct
    rw [List.map_cons, List.mem_cons, not_or] at unreserved
    have later := ih distinct.2 unreserved.2 fun e member => each e (List.mem_cons_of_mem _ member)
    have alone : rest.lookup key = none := lookup_eq_none_of_not_mem distinct.1
    by_cases absent : v = .absent
    · subst absent
      obtain ⟨merged, laid⟩ := later lower
      have run : merge lower ((key, .absent) :: rest) = ⟨merged, .absent⟩ := by
        rw [merge, mergeFields, mergeField, ← laid.run, merge]
      refine ⟨merged, run, fun asked => ?_, laid.distinct, laid.unreserved⟩
      rw [laid.values, List.lookup_cons]
      by_cases same : asked = key
      · subst same
        rw [alone, beq_self_eq_true]
        rfl
      · rw [beq_eq_false_iff_ne.mpr same]
    · obtain ⟨w, result⟩ := overlaid_present absent (lower.lookup key)
      have step := mergeField_present (Ne.symm unreserved.1) (each (key, v) List.mem_cons_self) absent result
      obtain ⟨merged, laid⟩ := later (putField key w lower)
      have run : merge lower ((key, v) :: rest) = ⟨merged, .absent⟩ := by
        rw [merge, mergeFields, step, ← laid.run, merge]
      refine ⟨merged, run, fun asked => ?_, fun nodup => laid.distinct (nodup_keys_putField nodup),
        fun fresh => laid.unreserved ?_⟩
      · rw [laid.values, lookup_putField, List.lookup_cons]
        by_cases same : asked = key
        · subst same
          rw [if_pos rfl, alone, beq_self_eq_true, result]
          rfl
        · rw [if_neg same, beq_eq_false_iff_ne.mpr same]
      · intro member
        rcases mem_keys_putField member with same | old
        · exact unreserved.1 same
        · exact fresh old

theorem Overlays.mapping {old new merged : List (String × Value)} (laid : Overlays old new merged) :
    overlaid (some (.mapping old)) (some (.mapping new)) = some (.mapping merged) := by
  simp only [overlaid, Option.bind_some, Value.ownFields?, laid.run]
  rfl

/-- A layer whose every name holds already what the upper layer would write does not change. -/
theorem merge_of_absorbed {own upper : List (String × Value)} (distinct : (own.map Prod.fst).Nodup)
    (unreserved : baseField ∉ upper.map Prod.fst) (each : ∀ e ∈ upper, Settings e.2)
    (absorbed : ∀ e ∈ upper, overlaid (own.lookup e.1) (some e.2) = own.lookup e.1) : merge own upper = ⟨own, .absent⟩ := by
  rw [merge]
  induction upper with
  | nil => rw [mergeFields]
  | cons e rest ih =>
    obtain ⟨key, v⟩ := e
    rw [List.map_cons, List.mem_cons, not_or] at unreserved
    have later := ih unreserved.2 (fun e member => each e (List.mem_cons_of_mem _ member))
      fun e member => absorbed e (List.mem_cons_of_mem _ member)
    have here := absorbed (key, v) List.mem_cons_self
    by_cases absent : v = .absent
    · subst absent
      rw [mergeFields, mergeField, later]
    · obtain ⟨w, result⟩ := overlaid_present absent (own.lookup key)
      have step := mergeField_present (Ne.symm unreserved.1) (each (key, v) List.mem_cons_self) absent result
      have there : own.lookup key = some w := here.symm.trans result
      rw [mergeFields, step, putField_self distinct there, later]

theorem overlaid_self {v : Value} (settings : Settings v) : overlaid (some v) (some v) = some v := by
  induction settings with
  | @mapping fields distinct unreserved each ih =>
    have absorbed : ∀ e ∈ fields, overlaid (fields.lookup e.1) (some e.2) = fields.lookup e.1 := by
      intro e member
      rw [lookup_eq_some_of_mem distinct member]
      exact ih e member
    have unchanged := merge_of_absorbed distinct unreserved each absorbed
    simp only [overlaid, Option.bind_some, Value.ownFields?, unchanged]
    rfl
  | @other v single =>
    by_cases absent : v = .absent
    · rw [absent]
      rfl
    · exact overlaid_decisive ⟨absent, single⟩ _

theorem Settings.only {v : Value} (settings : Settings v) : ∀ w, some v = some w → Settings w := by
  rintro _ ⟨⟩
  exact settings

/-- What is below is one value, or nothing, or a mapping. -/
theorem Settings.below_cases {below : Option Value} (lower : ∀ b, below = some b → Settings b) :
    below.bind Value.ownFields? = none ∨ ∃ old, below = some (.mapping old) := by
  cases below with
  | none => exact .inl rfl
  | some b =>
    cases lower b rfl with
    | mapping distinct unreserved each => exact .inr ⟨_, rfl⟩
    | other single => exact .inl single

theorem Settings.of_lookup {fields : List (String × Value)} {key : String} {v : Value} (each : ∀ e ∈ fields, Settings e.2)
    (found : fields.lookup key = some v) : Settings v := by
  obtain ⟨before, after, rfl, -⟩ := List.lookup_eq_some_iff.mp found
  exact each (key, v) (by simp)

theorem Settings.fields {fields : List (String × Value)} (settings : Settings (.mapping fields)) (key : String) :
    ∀ v, fields.lookup key = some v → Settings v := by
  cases settings with
  | other single => cases single
  | mapping _ _ each => exact fun v found => Settings.of_lookup each found

theorem Settings.overlays {new : List (String × Value)} (settings : Settings (.mapping new)) (old : List (String × Value)) :
    ∃ merged, Overlays old new merged := by
  cases settings with
  | other single => cases single
  | mapping distinct unreserved each => exact exists_overlays distinct unreserved each old

/-- Writing an upper layer a second time adds nothing. -/
theorem overlaid_again {above : Value} (settings : Settings above) {below : Option Value}
    (lower : ∀ b, below = some b → Settings b) :
    overlaid (overlaid below (some above)) (some above) = overlaid below (some above) := by
  induction settings generalizing below with
  | @mapping new distinct unreserved each ih =>
    rcases Settings.below_cases lower with single | ⟨old, rfl⟩
    · rw [overlaid_mapping single]
      exact overlaid_self (.mapping distinct unreserved each)
    · cases lower _ rfl with
      | other single => cases single
      | mapping distinctOld unreservedOld eachOld =>
        obtain ⟨merged, laid⟩ := exists_overlays distinct unreserved each old
        have absorbed : ∀ e ∈ new, overlaid (merged.lookup e.1) (some e.2) = merged.lookup e.1 := by
          intro e member
          rw [laid.values, lookup_eq_some_of_mem distinct member]
          exact ih e member fun b there => Settings.of_lookup eachOld there
        have twice := merge_of_absorbed (laid.distinct distinctOld) unreserved each absorbed
        rw [laid.mapping]
        simp only [overlaid, Option.bind_some, Value.ownFields?, twice]
        rfl
  | @other v single =>
    by_cases absent : v = .absent
    · rw [absent]
      rfl
    · rw [overlaid_decisive ⟨absent, single⟩, overlaid_decisive ⟨absent, single⟩]

theorem settings_overlaid {above : Value} (settings : Settings above) {below : Option Value}
    (lower : ∀ b, below = some b → Settings b) : ∀ w, overlaid below (some above) = some w → Settings w := by
  induction settings generalizing below with
  | @mapping new distinct unreserved each ih =>
    intro w result
    rcases Settings.below_cases lower with single | ⟨old, rfl⟩
    · rw [overlaid_mapping single] at result
      cases result
      exact .mapping distinct unreserved each
    · cases lower _ rfl with
      | other single => cases single
      | mapping distinctOld unreservedOld eachOld =>
        obtain ⟨merged, laid⟩ := exists_overlays distinct unreserved each old
        rw [laid.mapping] at result
        cases result
        refine .mapping (laid.distinct distinctOld) (laid.unreserved unreservedOld) fun e member => ?_
        have there := lookup_eq_some_of_mem (laid.distinct distinctOld) member
        rw [laid.values] at there
        cases upper : new.lookup e.1 with
        | none =>
          rw [upper] at there
          exact Settings.of_lookup eachOld there
        | some v =>
          rw [upper] at there
          obtain ⟨before, after, rfl, -⟩ := List.lookup_eq_some_iff.mp upper
          exact ih (e.1, v) (by simp) (fun b there => Settings.of_lookup eachOld there) e.2 there
  | @other v single =>
    intro w result
    by_cases absent : v = .absent
    · rw [absent] at result
      exact lower w result
    · rw [overlaid_decisive ⟨absent, single⟩] at result
      cases result
      exact .other single

/-! ### Along a path -/

theorem leavesOpen_absent (path : List String) : LeavesOpen .absent path where
  unset v found := by
    cases path with
    | nil => cases found; rfl
    | cons key path => cases found
  through before _ _ v found := by
    rintro ⟨present, -⟩
    cases before with
    | nil => cases found; exact present rfl
    | cons key before => cases found

theorem not_leavesOpen_decisive {v : Value} (decisive : Decisive v) (path : List String) : ¬ LeavesOpen v path := by
  rintro ⟨unset, through⟩
  cases path with
  | nil => exact decisive.1 (unset v rfl)
  | cons key path => exact through [] (List.nil_prefix) (by simp) v rfl decisive

theorem not_leavesOpen_here (fields : List (String × Value)) : ¬ LeavesOpen (.mapping fields) [] := by
  rintro ⟨unset, -⟩
  cases unset _ rfl

/-- A mapping leaves a path open if the field where it begins, if there is one, leaves the rest open. -/
theorem leavesOpen_cons {fields : List (String × Value)} {key : String} {path : List String} :
    LeavesOpen (.mapping fields) (key :: path) ↔ ∀ v, fields.lookup key = some v → LeavesOpen v path := by
  constructor
  · rintro ⟨unset, through⟩ v found
    refine ⟨fun w there => unset w ?_, fun before shorter other w there => through (key :: before) ?_ ?_ w ?_⟩
    · simp [along?, found, there]
    · exact (List.prefix_cons_inj key).mpr shorter
    · simpa using other
    · simp [along?, found, there]
  · intro inner
    refine ⟨fun w there => ?_, fun before shorter other w there => ?_⟩
    · obtain ⟨v, found, rest⟩ := Option.bind_eq_some_iff.mp there
      exact (inner v found).unset w rest
    · cases before with
      | nil =>
        cases there
        exact fun decisive => decisive.ne_mapping fields rfl
      | cons first before =>
        obtain ⟨rfl, inside⟩ := List.cons_prefix_cons.mp shorter
        obtain ⟨v, found, rest⟩ := Option.bind_eq_some_iff.mp there
        exact (inner v found).through before inside (by simpa using other) w rest

/-- Along a step into mappings, one layer over another is each field over the field below. -/
theorem along_cons_overlaid {old new : List (String × Value)} (settings : Settings (.mapping new)) (key : String)
    (path : List String) :
    (overlaid (some (.mapping old)) (some (.mapping new))).bind (along? (key :: path)) =
      (overlaid (old.lookup key) (new.lookup key)).bind (along? path) := by
  obtain ⟨merged, laid⟩ := settings.overlays old
  rw [laid.mapping, ← laid.values]
  rfl

/-- What the lower layer has where the upper one leaves it open is found again. -/
theorem along_overlaid {v : Value} {path : List String} {below above : Option Value}
    (upper : ∀ a, above = some a → Settings a) (found : below.bind (along? path) = some v)
    (leaves : ∀ a, above = some a → LeavesOpen a path) : (overlaid below above).bind (along? path) = some v := by
  induction path generalizing below above with
  | nil =>
    cases above with
    | none => exact found
    | some a =>
      rcases (upper a rfl).cases with rfl | ⟨new, rfl⟩ | decisive
      · exact found
      · exact absurd (leaves _ rfl) (not_leavesOpen_here new)
      · exact absurd (leaves a rfl) (not_leavesOpen_decisive decisive _)
  | cons key path ih =>
    cases above with
    | none => exact found
    | some a =>
      rcases (upper a rfl).cases with rfl | ⟨new, rfl⟩ | decisive
      · exact found
      · obtain ⟨b, rfl, there⟩ := Option.bind_eq_some_iff.mp found
        cases b with
        | mapping old =>
          rw [along_cons_overlaid (upper _ rfl)]
          exact ih ((upper _ rfl).fields key) there (leavesOpen_cons.mp (leaves _ rfl))
        | _ => cases there
      · exact absurd (leaves a rfl) (not_leavesOpen_decisive decisive _)

/-- Along a path, what the upper layer has is found again. -/
theorem along_overlaid_upper {v : Value} (decisive : Decisive v) {path : List String} {below above : Option Value}
    (lower : ∀ b, below = some b → Settings b) (upper : ∀ a, above = some a → Settings a)
    (found : above.bind (along? path) = some v) : (overlaid below above).bind (along? path) = some v := by
  obtain ⟨a, rfl, there⟩ := Option.bind_eq_some_iff.mp found
  induction path generalizing below a with
  | nil =>
    cases there
    rw [overlaid_decisive decisive]
    rfl
  | cons key path ih =>
    cases a with
    | mapping new =>
      rcases Settings.below_cases lower with single | ⟨old, rfl⟩
      · rw [overlaid_mapping single]
        exact found
      · rw [along_cons_overlaid (upper _ rfl)]
        obtain ⟨w, field, rest⟩ := Option.bind_eq_some_iff.mp there
        rw [field]
        refine ih ((lower _ rfl).fields key) w rest ?_ rest
        rintro _ ⟨⟩
        exact (upper _ rfl).fields key w field
    | _ => cases there

/-- There is nothing along a path but what one of the layers has. -/
theorem along_of_overlaid {v : Value} (decisive : Decisive v) {path : List String} {below above : Option Value}
    (lower : ∀ b, below = some b → Settings b) (upper : ∀ a, above = some a → Settings a)
    (found : (overlaid below above).bind (along? path) = some v) :
    above.bind (along? path) = some v ∨
      below.bind (along? path) = some v ∧ ∀ a, above = some a → LeavesOpen a path := by
  induction path generalizing below above with
  | nil =>
    cases above with
    | none => exact .inr ⟨found, nofun⟩
    | some a =>
      rcases (upper a rfl).cases with rfl | ⟨new, rfl⟩ | single
      · exact .inr ⟨found, fun _ same => by cases same; exact leavesOpen_absent []⟩
      · rcases Settings.below_cases lower with single | ⟨old, rfl⟩
        · rw [overlaid_mapping single] at found
          exact .inl found
        · obtain ⟨merged, laid⟩ := (upper _ rfl).overlays old
          rw [laid.mapping] at found
          cases found
          exact absurd rfl (decisive.ne_mapping merged)
      · rw [overlaid_decisive single] at found
        exact .inl found
  | cons key path ih =>
    cases above with
    | none => exact .inr ⟨found, nofun⟩
    | some a =>
      rcases (upper a rfl).cases with rfl | ⟨new, rfl⟩ | single
      · exact .inr ⟨found, fun _ same => by cases same; exact leavesOpen_absent _⟩
      · rcases Settings.below_cases lower with single | ⟨old, rfl⟩
        · rw [overlaid_mapping single] at found
          exact .inl found
        · rw [along_cons_overlaid (upper _ rfl)] at found
          rcases ih ((lower _ rfl).fields key) ((upper _ rfl).fields key) found with above | ⟨below, leaves⟩
          · exact .inl above
          · refine .inr ⟨below, ?_⟩
            rintro _ ⟨⟩
            exact leavesOpen_cons.mpr leaves
      · rw [overlaid_decisive single] at found
        exact .inl found

/-! ### Two layers -/

/-- One layer of settings was written over another: what the upper layer has stands, what the lower
    layer has stands where the upper one leaves it open, and nothing else does. -/
structure LaidOver (lower upper merged : List (String × Value)) : Prop where
  upper_kept : ∀ path v, Decisive v → along? path (.mapping upper) = some v → along? path (.mapping merged) = some v
  lower_kept : ∀ path v, along? path (.mapping lower) = some v → LeavesOpen (.mapping upper) path →
    along? path (.mapping merged) = some v
  nothing_else : ∀ path v, Decisive v → along? path (.mapping merged) = some v →
    along? path (.mapping upper) = some v ∨ along? path (.mapping lower) = some v ∧ LeavesOpen (.mapping upper) path

theorem laidOver_of_overlays {lower upper merged : List (String × Value)} (below : Settings (.mapping lower))
    (above : Settings (.mapping upper)) (laid : Overlays lower upper merged) : LaidOver lower upper merged := by
  have written (path : List String) : along? path (.mapping merged) =
      (overlaid (some (.mapping lower)) (some (.mapping upper))).bind (along? path) := by
    rw [laid.mapping]
    rfl
  refine ⟨fun path v decisive found => ?_, fun path v found leaves => ?_, fun path v decisive found => ?_⟩
  · rw [written]
    exact along_overlaid_upper decisive below.only above.only found
  · rw [written]
    refine along_overlaid above.only found ?_
    rintro _ ⟨⟩
    exact leaves
  · rw [written] at found
    rcases along_of_overlaid decisive below.only above.only found with there | ⟨there, leaves⟩
    · exact .inl there
    · exact .inr ⟨there, leaves _ rfl⟩

/-- Settings written over others are settings again, with what both layers decide on every path;
    the upper layer adds nothing when it is written once more, and neither does an empty one. -/
theorem merge_laidOver {lower upper : List (String × Value)} (below : Settings (.mapping lower))
    (above : Settings (.mapping upper)) :
    ∃ merged, (merge lower upper).toValue = .mapping merged ∧ Settings (.mapping merged) ∧ LaidOver lower upper merged ∧
      (merge merged upper).toValue = .mapping merged ∧ (merge lower []).toValue = .mapping lower := by
  obtain ⟨merged, laid⟩ := above.overlays lower
  have again : (merge merged upper).toValue = .mapping merged := by
    have twice := overlaid_again above below.only
    obtain ⟨last, more⟩ := above.overlays merged
    rw [laid.mapping, more.mapping] at twice
    cases twice
    rw [more.run]
    rfl
  have merged_settings : Settings (.mapping merged) := settings_overlaid above below.only _ laid.mapping
  refine ⟨merged, ?_, merged_settings, laidOver_of_overlays below above laid, again, ?_⟩
  · rw [laid.run]
    rfl
  · rw [merge, mergeFields]
    rfl

/-- A lower layer with mappings, a list and a field without a value. -/
def workLayer : List (String × Value) :=
  [("paths", .mapping [("in", .text "/in"), ("out", .null), ("logs", .list [.text "a"])]),
    ("queue", .mapping [("name", .text "nightly")]), ("retries", .text "3"), ("owner", .absent)]

/-- An upper layer that goes into a mapping, replaces one and puts one in the place of a text. -/
def homeLayer : List (String × Value) :=
  [("paths", .mapping [("in", .absent), ("out", .text "/out"), ("logs", .list [])]), ("queue", .null),
    ("retries", .mapping [("most", .absent)])]

theorem merge_laidOver_home :
    ∃ merged, merged = [("paths", Value.mapping [("in", .text "/in"), ("out", .text "/out"), ("logs", .list [])]), ("queue", .null),
        ("retries", .mapping [("most", .absent)]), ("owner", .absent)] ∧
      (merge workLayer homeLayer).toValue = .mapping merged ∧ Settings (.mapping merged) ∧
      LaidOver workLayer homeLayer merged ∧ (merge merged homeLayer).toValue = .mapping merged := by
  have work : Settings (.mapping workLayer) := by
    have paths : Settings (.mapping [("in", .text "/in"), ("out", .null), ("logs", .list [.text "a"])]) :=
      .mapping (by decide) (by decide) (by simp only [List.forall_mem_cons]; exact ⟨.other rfl, .other rfl, .other rfl, List.forall_mem_nil _⟩)
    have queue : Settings (.mapping [("name", .text "nightly")]) :=
      .mapping (by decide) (by decide) (by simp only [List.forall_mem_cons]; exact ⟨.other rfl, List.forall_mem_nil _⟩)
    refine .mapping (by decide) (by decide) ?_
    simp only [workLayer, List.forall_mem_cons]
    exact ⟨paths, queue, .other rfl, .other rfl, List.forall_mem_nil _⟩
  have home : Settings (.mapping homeLayer) := by
    have paths : Settings (.mapping [("in", .absent), ("out", .text "/out"), ("logs", .list [])]) :=
      .mapping (by decide) (by decide) (by simp only [List.forall_mem_cons]; exact ⟨.other rfl, .other rfl, .other rfl, List.forall_mem_nil _⟩)
    have retries : Settings (.mapping [("most", .absent)]) :=
      .mapping (by decide) (by decide) (by simp only [List.forall_mem_cons]; exact ⟨.other rfl, List.forall_mem_nil _⟩)
    refine .mapping (by decide) (by decide) ?_
    simp only [homeLayer, List.forall_mem_cons]
    exact ⟨paths, .other rfl, retries, List.forall_mem_nil _⟩
  obtain ⟨merged, result, settings, laid, again, -⟩ := merge_laidOver work home
  refine ⟨merged, ?_, result, settings, laid, again⟩
  have run : (merge workLayer homeLayer).toValue =
      .mapping [("paths", .mapping [("in", .text "/in"), ("out", .text "/out"), ("logs", .list [])]), ("queue", .null),
        ("retries", .mapping [("most", .absent)]), ("owner", .absent)] := by
    rfl
  rw [run] at result
  cases result
  rfl

end WorkflowCompiler.Site
