import Std.Time.DateTime
import Std.Time.Format
import Std.Time.Zoned
import WorkflowCompiler.CommandLine.Run

/-!
# The program

Reads the files that a command line names, runs it and prints its outcome.
-/
namespace WorkflowCompiler

/-- What the system finds under a path. -/
def readEntry (path : String) : IO FileEntry := do
  try
    return .text (← IO.FS.readFile path)
  catch
    | .noFileOrDirectory .. => return .missing
    | .inappropriateType (some _) .. => return .throughFile
    | .invalidArgument .. => return .nameTooLong
    | _ => return .directory

/-- The paths that a command line in a working directory needs. -/
def neededPaths (w : Workspace) (words : List String) : List String :=
  match CommandLine.request words with
  | .ok (.run i) => w.resolve siteFileName :: w.resolve i.file :: i.options.conf.toList
  | _ => []

/-- The working directory with the files that a command line needs. -/
def readWorkspace (words : List String) : IO Workspace := do
  let directory := (← IO.currentDir).toString
  let paths := neededPaths ⟨directory, fun _ => .missing⟩ words
  let entries ← paths.mapM fun path => do return (path, ← readEntry path)
  return ⟨directory, fun path => (entries.lookup path).getD .missing⟩

/-- The time of day for log lines. -/
def currentTime : IO String := do
  let now ← Std.Time.Timestamp.now
  return (Std.Time.DateTime.ofTimestamp now .UTC).format "uuuu-MM-dd'T'HH:mm:ss.SSS'Z'"

/-- Runs a command line and prints its outcome; the result is the exit code. -/
def execute (words : List String) : IO UInt32 := do
  let workspace ← readWorkspace words
  let outcome := CommandLine.run workspace (← currentTime) words
  (← IO.getStdout).putStr outcome.stdout
  (← IO.getStderr).putStr outcome.stderr
  return UInt32.ofNat outcome.exit

end WorkflowCompiler

def main (words : List String) : IO UInt32 := WorkflowCompiler.execute words
