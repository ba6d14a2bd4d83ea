import WorkflowCompiler.JobConf
import WorkflowCompiler.Proofs.Definition.Expression
import WorkflowCompiler.Proofs.Dict

/-!
Definitions on their way into a job configuration. Those that are accepted are collected
as they are (`collected_eq_ok`), and each is cut at its first equals sign
(`splitDefine_of_accepted`). In the job configuration the last definition of a key counts,
and where no definition has a key, the file does (`load_defined`). A key is empty exactly
if only blanks come before the equals sign; such a definition is accepted all the same
(`blankDefine_accepted`).
-/
namespace WorkflowCompiler.JobConf
open Text

/-- What comes before the first equals sign. -/
def beforeEquals (define : String) : List Char := define.toList.takeWhile (· ≠ '=')

/-- The key that a definition is about. -/
def keyOf (define : String) : String := String.ofList (trimChars (beforeEquals define))

/-- What comes after the first equals sign, as it is. -/
def valueOf (define : String) : String := String.ofList ((define.toList.dropWhile (· ≠ '=')).drop 1)

/-- Collects definitions one after the other. -/
def collected (values previous : List String) : Except BadDefine (List String) :=
  values.foldlM (fun previous value => collectDefine value previous) previous

/-- What the file of a name holds: fields that are all scalars. Where no file is named there are none. -/
inductive Holds (w : Workspace) : Option String → List (String × Value) → Prop
  | unnamed : Holds w none []
  | blank : Holds w (some "") []
  | file {name : String} {v : Value} {fields : List (String × Value)} (named : name ≠ "")
      (read : Site.readDocument ((w.find name).read name) = .ok v) (mapping : Site.documentFields v = some fields)
      (scalars : ∀ e ∈ fields, (scalarText? e.2).isSome = true) : Holds w (some name) fields

/-- The text of the last field of a name. -/
def fileValue? (fields : List (String × Value)) (key : String) : Option String :=
  (fields.reverse.lookup key).bind scalarText?

/-- A job configuration in which the last definition of each key counts, and the file for every other key. -/
structure Defined (fields : List (String × Value)) (defines : List String) (conf : Dict String) : Prop where
  last : ∀ before define after, defines = before ++ define :: after → (∀ later ∈ after, keyOf later ≠ keyOf define) →
    conf.get? (keyOf define) = some (valueOf define)
  others : ∀ key, (∀ define ∈ defines, keyOf define ≠ key) → conf.get? key = fileValue? fields key

/-! ### Single definitions -/

theorem takeWhile_equals {key : List Char} (first : '=' ∉ key) (value : List Char) :
    (key ++ '=' :: value).takeWhile (· ≠ '=') = key ∧ (key ++ '=' :: value).dropWhile (· ≠ '=') = '=' :: value := by
  have other : ∀ c ∈ key, decide (c ≠ '=') = true := by
    intro c member
    simpa using fun same : c = '=' => first (same ▸ member)
  constructor
  · rw [List.takeWhile_append_of_pos other, List.takeWhile_cons_of_neg (by simp), List.append_nil]
  · rw [List.dropWhile_append_of_pos other, List.dropWhile_cons_of_neg (by simp)]

/-- A definition is accepted exactly if something comes before its first equals sign, and then as it is. -/
theorem collectDefine_eq_ok {define : String} {previous defines : List String} :
    collectDefine define previous = .ok defines ↔
      defines = previous ++ [define] ∧ ∃ key value, breakOn ['='] define.toList = some (key, value) ∧ key ≠ [] := by
  rw [collectDefine]
  rcases cut : breakOn ['='] define.toList with _ | ⟨_ | ⟨c, key⟩, value⟩
  · simp
  · simp
  · simp [eq_comm]

theorem splitDefine_of_cut {define : String} {key value : List Char} (cut : breakOn ['='] define.toList = some (key, value)) :
    splitDefine define = (keyOf define, valueOf define) := by
  have whole : define.toList = key ++ '=' :: value := by simpa using eq_append_of_breakOn cut
  obtain ⟨front, rest⟩ := takeWhile_equals (not_mem_of_breakOn cut) value
  rw [keyOf, beforeEquals, valueOf, whole, front, rest, splitDefine, cut]
  rfl

/-- The key of a definition is empty exactly if only blanks come before the first equals sign. -/
theorem keyOf_eq_empty_iff {define : String} : keyOf define = "" ↔ ∀ c ∈ beforeEquals define, isBlank c = true := by
  rw [← List.all_eq_true, ← trimChars_eq_nil_iff, keyOf]
  exact ⟨fun empty => by simpa using congrArg String.toList empty, fun empty => by rw [empty]⟩

/-! ### Collecting -/

/-- Definitions are collected as they are, if each is accepted. -/
theorem collected_eq_ok {values previous defines : List String} :
    collected values previous = .ok defines ↔
      defines = previous ++ values ∧ ∀ define ∈ values, ∃ key value, breakOn ['='] define.toList = some (key, value) ∧ key ≠ [] := by
  induction values generalizing previous with
  | nil =>
    rw [collected, List.foldlM_nil, List.append_nil]
    simp [pure, Except.pure, eq_comm]
  | cons value rest ih =>
    have step : collected (value :: rest) previous = (collectDefine value previous).bind (collected rest) := rfl
    rw [step, List.forall_mem_cons]
    constructor
    · intro run
      cases first : collectDefine value previous with
      | error fault =>
        rw [first] at run
        cases run
      | ok more =>
        rw [first] at run
        obtain ⟨rfl, cut⟩ := collectDefine_eq_ok.mp first
        obtain ⟨rfl, others⟩ := ih.mp run
        exact ⟨by simp, cut, others⟩
    · rintro ⟨rfl, cut, others⟩
      rw [collectDefine_eq_ok.mpr ⟨rfl, cut⟩]
      exact ih.mpr ⟨by simp, others⟩

/-! ### Files -/

/-- Scalar fields are read, each as its text. -/
theorem readEntries_of_scalars {fields : List (String × Value)} (scalars : ∀ e ∈ fields, (scalarText? e.2).isSome = true) :
    ∃ entries, readEntries fields = .ok entries ∧ ∀ key, entries.reverse.lookup key = fileValue? fields key := by
  induction fields with
  | nil => exact ⟨[], rfl, fun key => rfl⟩
  | cons e rest ih =>
    obtain ⟨name, v⟩ := e
    rw [List.forall_mem_cons] at scalars
    obtain ⟨entries, read, found⟩ := ih scalars.2
    obtain ⟨s, text⟩ := Option.isSome_iff_exists.mp scalars.1
    refine ⟨(name, s) :: entries, by simp only [readEntries, text, read]; rfl, fun key => ?_⟩
    rw [fileValue?, List.reverse_cons, List.reverse_cons, List.lookup_append, List.lookup_append, found, fileValue?]
    cases later : rest.reverse.lookup key with
    | some w =>
      obtain ⟨before, after, split, -⟩ := List.lookup_eq_some_iff.mp later
      have member : (key, w) ∈ rest := by
        rw [← List.mem_reverse, split]
        simp
      obtain ⟨t, there⟩ := Option.isSome_iff_exists.mp (scalars.2 (key, w) member)
      simp only [Option.bind_some, there, Option.some_or]
    | none =>
      by_cases same : key = name
      · subst same
        simp [text]
      · simp [List.lookup_cons, beq_eq_false_iff_ne.mpr same]

theorem Holds.fileEntries {w : Workspace} {name : Option String} {fields : List (String × Value)} (holds : Holds w name fields) :
    ∃ entries, fileEntries w name = .ok entries ∧ ∀ key, entries.reverse.lookup key = fileValue? fields key := by
  cases holds with
  | unnamed => exact ⟨[], rfl, fun key => rfl⟩
  | blank => exact ⟨[], rfl, fun key => rfl⟩
  | file named read mapping scalars =>
    obtain ⟨entries, texts, found⟩ := readEntries_of_scalars scalars
    refine ⟨entries, ?_, found⟩
    rw [JobConf.fileEntries, if_neg named, readFile, read]
    simp only [mapping, texts]

/-! ### Job configurations -/

theorem lookup_reverse_none {entries : List (String × String)} {key : String} (fresh : ∀ e ∈ entries, e.1 ≠ key) :
    entries.reverse.lookup key = none := by
  refine lookup_eq_none_of_not_mem fun member => ?_
  obtain ⟨e, among, same⟩ := List.mem_map.mp member
  exact fresh e (List.mem_reverse.mp among) same

/-- Definitions that were accepted are written over the file, each key with the last of its values. -/
theorem load_defined {w : Workspace} {name : Option String} {fields : List (String × Value)} {values defines : List String}
    (holds : Holds w name fields) (accepted : collected values [] = .ok defines) :
    ∃ conf, load w name defines = .ok conf ∧ Defined fields values conf ∧
      ((∀ define ∈ values, keyOf define ≠ "") ↔ ∀ define ∈ values, ∃ c ∈ beforeEquals define, isBlank c = false) := by
  obtain ⟨same, cuts⟩ := collected_eq_ok.mp accepted
  rw [List.nil_append] at same
  subst same
  obtain ⟨entries, read, found⟩ := holds.fileEntries
  have split : defines.map splitDefine = defines.map fun define => (keyOf define, valueOf define) := by
    refine List.map_congr_left fun define member => ?_
    obtain ⟨key, value, cut, -⟩ := cuts define member
    exact splitDefine_of_cut cut
  refine ⟨(Dict.ofList entries).putAll (defines.map splitDefine), by rw [load, read]; rfl, ⟨?_, ?_⟩, ?_⟩
  · rintro before define after whole fresh
    have later : (after.map fun define => (keyOf define, valueOf define)).reverse.lookup (keyOf define) = none := by
      refine lookup_reverse_none fun e member => ?_
      obtain ⟨d, among, rfl⟩ := List.mem_map.mp member
      exact fresh d among
    rw [split, Dict.get?_putAll_last, whole, List.map_append, List.map_cons, List.reverse_append, List.reverse_cons,
      List.lookup_append, List.lookup_append, later]
    simp
  · intro key fresh
    have defined : (defines.map fun define => (keyOf define, valueOf define)).reverse.lookup key = none := by
      refine lookup_reverse_none fun e member => ?_
      obtain ⟨d, among, rfl⟩ := List.mem_map.mp member
      exact fresh d among
    rw [split, Dict.get?_putAll_last, defined, Option.none_or, Dict.ofList, Dict.get?_putAll_last, found, Dict.get?_empty,
      Option.or_none]
  · refine forall_congr' fun define => forall_congr' fun _ => ?_
    rw [Ne, keyOf_eq_empty_iff]
    simp

/-- A directory whose files all say the same. -/
def tunedWorkspace : Workspace := ⟨"/home", fun _ => .text "mode: fast\nqueue: low\n"⟩

theorem eq_text {v : Value} {s : String} (kind : Site.kindOf? v = some .text) (scalar : scalarText? v = some s) : v = .text s := by
  cases v with
  | text t => exact congrArg Value.text (Option.some.inj scalar)
  | number x => cases x <;> cases kind
  | _ => cases kind

theorem holds_tuned : Holds tunedWorkspace (some "job.yml") [("mode", .text "fast"), ("queue", .text "low")] := by
  have parts : (match Site.readDocument ((tunedWorkspace.find "job.yml").read "job.yml") with
      | .ok v => (Site.documentFields v).map (List.map fun e => (e.1, Site.kindOf? e.2, scalarText? e.2))
      | .error _ => none) = some [("mode", some .text, some "fast"), ("queue", some .text, some "low")] := by decide +kernel
  split at parts
  · rename_i v read
    obtain ⟨fields, mapping, entries⟩ := Option.map_eq_some_iff.mp parts
    obtain ⟨⟨_, first⟩, rest, rfl, here, others⟩ := List.map_eq_cons_iff.mp entries
    obtain ⟨⟨_, second⟩, last, rfl, there, none⟩ := List.map_eq_cons_iff.mp others
    obtain rfl := List.map_eq_nil_iff.mp none
    simp only [Prod.mk.injEq] at here there
    obtain ⟨rfl, kind, scalar⟩ := here
    obtain ⟨rfl, kind', scalar'⟩ := there
    rw [eq_text kind scalar, eq_text kind' scalar'] at mapping
    exact .file (by decide) read mapping (by decide)
  · cases parts

theorem load_defined_tuned :
    ∃ conf, load tunedWorkspace (some "job.yml") ["mode=slow", " mode = a=b ", "\tuser="] = .ok conf ∧
      Defined [("mode", .text "fast"), ("queue", .text "low")] ["mode=slow", " mode = a=b ", "\tuser="] conf ∧
      conf.entries = [("mode", " a=b "), ("queue", "low"), ("user", "")] ∧
      ∀ define ∈ ["mode=slow", " mode = a=b ", "\tuser="], keyOf define ≠ "" := by
  have accepted : collected ["mode=slow", " mode = a=b ", "\tuser="] [] = .ok ["mode=slow", " mode = a=b ", "\tuser="] := by decide
  have keyed : ∀ define ∈ ["mode=slow", " mode = a=b ", "\tuser="], ∃ c ∈ beforeEquals define, isBlank c = false := by
    simp only [List.forall_mem_cons]
    exact ⟨⟨'m', by decide, by decide⟩, ⟨'m', by decide, by decide⟩, ⟨'u', by decide, by decide⟩, List.forall_mem_nil _⟩
  obtain ⟨conf, loaded, defined, named⟩ := load_defined holds_tuned accepted
  refine ⟨conf, loaded, defined, ?_, named.mpr keyed⟩
  have entries : fileEntries tunedWorkspace (some "job.yml") = .ok [("mode", "fast"), ("queue", "low")] := by
    decide +kernel
  rw [load, entries] at loaded
  cases loaded
  decide

/-- A definition with a blank key is accepted, and the job configuration gets an entry without a name. -/
theorem blankDefine_accepted :
    collected [" =x"] [] = .ok [" =x"] ∧ Holds tunedWorkspace none [] ∧
      ∃ conf, load tunedWorkspace none [" =x"] = .ok conf ∧ conf.entries = [("", "x")] ∧
        ¬ ∀ define ∈ [" =x"], keyOf define ≠ "" :=
  ⟨by decide, .unnamed, _, rfl, by decide, by decide⟩

end WorkflowCompiler.JobConf
