import WorkflowCompiler.CommandLine.Run
import WorkflowCompiler.Proofs.Json.Indented

/-!
The two commands on one file (`commands_agree`). Both compile it in the same way, so they
fail on the same files and then say the same on the error output. As data they agree as
long as the file compiles: `inspect` has no report of a failure as data.
-/
namespace WorkflowCompiler.CommandLine
open Json Report

variable {w : Workspace} {time : String} {i : Invocation}

/-- A text is one JSON document. -/
def IsDocument (s : String) : Prop := ∃ v, Json.read s = some v

/-- What a command leaves behind that is asked for in place of the one of an invocation. -/
def outcome (w : Workspace) (time : String) (i : Invocation) (command : Command) : Outcome :=
  runCommand w time { i with command }

def Compiles (w : Workspace) (i : Invocation) : Prop := ∃ c, (compileFile w i).result = .ok c

/-- The commands fail on the same files, and tell the same of a failure in lines. -/
structure SameFailure (w : Workspace) (time : String) (i : Invocation) : Prop where
  status : (outcome w time i .validate).exit = 1 ↔ (outcome w time i .inspect).exit = 1
  lines : i.options.json = false → (outcome w time i .validate).exit = 1 →
    (outcome w time i .validate).stderr = (outcome w time i .inspect).stderr ∧
      ∀ command, (outcome w time i command).stdout = ""

/-- The commands answer with data where data is asked for, and tell the same of a failure. -/
structure SameData (w : Workspace) (time : String) (i : Invocation) : Prop where
  document : i.options.json = true → ∀ command, IsDocument (outcome w time i command).stdout
  failure : i.options.json = true → (outcome w time i .validate).exit = 1 →
    (outcome w time i .validate).stdout = (outcome w time i .inspect).stdout

/-! ### Outcomes -/

/-- The commands compile a file in the same way. -/
theorem compileFile_command (w : Workspace) (i : Invocation) (command : Command) :
    compileFile w { i with command } = compileFile w i :=
  rfl

theorem outcome_of_ok {c : Compiled} (compiled : (compileFile w i).result = .ok c) (command : Command) :
    outcome w time i command =
      { stdout := linesText (successLines { i with command } c), stderr := linesText (logLines time (compileFile w i)) } := by
  rw [outcome, runCommand, compileFile_command]
  simp only [compiled]

theorem outcome_of_error {fault : RunFault} (failed : (compileFile w i).result = .error fault) (command : Command) :
    outcome w time i command = failureOutcome { i with command } (logLines time (compileFile w i)) (failure fault) := by
  rw [outcome, runCommand, compileFile_command]
  simp only [failed]

theorem exit_eq_one_iff (command : Command) : (outcome w time i command).exit = 1 ↔ ¬ Compiles w i := by
  unfold Compiles
  cases result : (compileFile w i).result with
  | ok c => simp [outcome_of_ok result]
  | error fault =>
    rw [outcome_of_error result, failureOutcome]
    split <;> simp

/-! ### Documents -/

theorem isDocument_linesText {v : Value} (legible : Legible v) : IsDocument (linesText [indented v]) := by
  refine ⟨reread v, ?_⟩
  rw [← read_indented legible, linesText]
  simp [String.join]

theorem not_isDocument_empty : ¬ IsDocument "" := by
  rintro ⟨v, read⟩
  cases read

theorem legible_countValue (n : Nat) : Legible (countValue n) := .number (Decimal.Binary64.ofNat_canonical n)

theorem legible_summaryValue (s : Summary) : Legible (summaryValue s) := by
  refine .mapping ?_
  simp only [List.forall_mem_cons]
  exact ⟨.bool true, .text _, legible_countValue _, legible_countValue _, legible_texts _, legible_texts _, List.forall_mem_nil _⟩

theorem legible_failureValue (f : Failure) : Legible (failureValue f) := by
  refine .mapping ?_
  simp only [List.forall_mem_cons]
  exact ⟨.bool false, .text _, .text _, legible_ofText? _, List.forall_mem_nil _⟩

theorem legible_nodesValue (name : String) (rows : List NodeRow) : Legible (nodesValue name rows) := by
  refine .mapping ?_
  simp only [List.forall_mem_cons]
  refine ⟨.text _, .list fun v member => ?_, List.forall_mem_nil _⟩
  obtain ⟨r, -, rfl⟩ := List.mem_map.mp member
  refine .mapping ?_
  simp only [List.forall_mem_cons]
  exact ⟨.text _, .text _, legible_texts _, List.forall_mem_nil _⟩

theorem isDocument_of_ok {c : Compiled} (compiled : (compileFile w i).result = .ok c) (json : i.options.json = true)
    (command : Command) : IsDocument (outcome w time i command).stdout := by
  rw [outcome_of_ok compiled]
  cases command with
  | validate =>
    simp only [successLines, json, if_true]
    exact isDocument_linesText (legible_summaryValue _)
  | inspect =>
    simp only [successLines, json, if_true]
    exact isDocument_linesText (legible_nodesValue _ _)

/-! ### Failures -/

theorem validate_failure {fault : RunFault} (failed : (compileFile w i).result = .error fault) (json : i.options.json = true) :
    (outcome w time i .validate).stdout = linesText [indented (failureValue (failure fault))] := by
  rw [outcome_of_error failed, failureOutcome, if_pos ⟨rfl, json⟩]

/-- A failure is told in lines where no data is asked for, and by `inspect` in any case. -/
theorem failure_lines {fault : RunFault} (failed : (compileFile w i).result = .error fault) {command : Command}
    (lines : i.options.json = false ∨ command = .inspect) :
    outcome w time i command =
      { stderr := linesText (logLines time (compileFile w i) ++ [failureText false (failure fault)]), exit := 1 } := by
  rw [outcome_of_error failed, failureOutcome, if_neg]
  rintro ⟨validates, json⟩
  rcases lines with none | rfl
  · rw [none] at json
    cases json
  · cases validates

theorem sameFailure (w : Workspace) (time : String) (i : Invocation) : SameFailure w time i where
  status := by rw [exit_eq_one_iff, exit_eq_one_iff]
  lines none failed := by
    rw [exit_eq_one_iff] at failed
    cases result : (compileFile w i).result with
    | ok c => exact absurd ⟨c, result⟩ failed
    | error fault =>
      have told (command : Command) : outcome w time i command = _ := failure_lines result (.inl none)
      exact ⟨by rw [told, told], fun command => by rw [told]⟩

theorem validate_document (w : Workspace) (time : String) {i : Invocation} (json : i.options.json = true) :
    IsDocument (outcome w time i .validate).stdout := by
  cases result : (compileFile w i).result with
  | ok c => exact isDocument_of_ok result json .validate
  | error fault =>
    rw [validate_failure result json]
    exact isDocument_linesText (legible_failureValue _)

/-- What `inspect` writes of a failure is no data. -/
theorem inspect_not_document {fault : RunFault} (failed : (compileFile w i).result = .error fault) :
    ¬ IsDocument (outcome w time i .inspect).stdout := by
  rw [failure_lines failed (.inr rfl)]
  exact not_isDocument_empty

/-- The commands agree on failures told in lines, and `validate` answers with data where data is asked for. Then `inspect`
    does so as well, with the same for a failure, exactly if the file compiles. -/
theorem commands_agree (w : Workspace) (time : String) (i : Invocation) :
    SameFailure w time i ∧ (i.options.json = true → IsDocument (outcome w time i .validate).stdout) ∧
      (SameData w time i ↔ (i.options.json = true → Compiles w i)) := by
  refine ⟨sameFailure w time i, validate_document w time, ?_, ?_⟩
  · intro same json
    cases result : (compileFile w i).result with
    | ok c => exact ⟨c, result⟩
    | error fault => exact absurd (same.document json .inspect) (inspect_not_document result)
  · intro compiles
    constructor
    · intro json command
      obtain ⟨c, result⟩ := compiles json
      exact isDocument_of_ok result json command
    · intro json failed
      exact absurd (compiles json) ((exit_eq_one_iff _).mp failed)

/-- A directory without files. -/
def emptyWorkspace : Workspace := ⟨"/home", fun _ => .missing⟩

/-- A file that is not there, to be reported as data. -/
def missingFile : Invocation := { command := .inspect, file := "missing.xml", options := { json := true } }

/-- Asked for data, `validate` tells of a missing file in a document, and `inspect` in a line on the error output. -/
theorem missingFile_disagree :
    (outcome emptyWorkspace "" missingFile .validate).stdout =
        "\x7b\n  \"valid\": false,\n  \"code\": \"ERROR\",\n" ++
          "  \"message\": \"ENOENT: no such file or directory, open '/home/missing.xml'\"\n\x7d\n" ∧
      outcome emptyWorkspace "" missingFile .inspect =
        { stderr := "✗ [ERROR] ENOENT: no such file or directory, open '/home/missing.xml'\n", exit := 1 } ∧
      ¬ SameData emptyWorkspace "" missingFile := by
  have missing : (compileFile emptyWorkspace missingFile).result = .error (.file (.missing "/home/missing.xml")) := by
    have path : (match (compileFile emptyWorkspace missingFile).result with
        | .error (.file (.missing path)) => some path
        | _ => none) = some "/home/missing.xml" := by decide +kernel
    split at path
    · rename_i result
      cases path
      exact result
    · cases path
  have quiet : logLines "" (compileFile emptyWorkspace missingFile) = [] := by decide +kernel
  refine ⟨?_, ?_, fun same => inspect_not_document missing (same.document rfl .inspect)⟩
  · rw [validate_failure missing rfl]
    decide +kernel
  · rw [failure_lines missing (.inr rfl), quiet]
    decide +kernel

end WorkflowCompiler.CommandLine
