/-!
# Files

A working directory and the files that can be read from it. A path is followed
step by step: every step but the last has to be a directory, so a path through a
file leads nowhere, even where its next step leads back. A path can also be
resolved against the working directory without looking at any file: empty steps
and single dots are dropped, and two dots lead one step up.
-/
namespace WorkflowCompiler

/-- Why a file cannot be read. -/
inductive FileFault
  | missing (path : String)
  | notDirectory (path : String)
  | nameTooLong (path : String)
  | isDirectory
deriving DecidableEq, Repr

def FileFault.message : FileFault → String
  | .missing path => "ENOENT: no such file or directory, open '" ++ path ++ "'"
  | .notDirectory path => "ENOTDIR: not a directory, open '" ++ path ++ "'"
  | .nameTooLong path => "ENAMETOOLONG: name too long, open '" ++ path ++ "'"
  | .isDirectory => "EISDIR: illegal operation on a directory, read"

/-- What is found under a path. -/
inductive FileEntry
  | text (content : String)
  | missing
  /-- A step of the path is a file. -/
  | throughFile
  /-- The path, or a step of it that was reached, is longer than names can be. -/
  | nameTooLong
  | directory
deriving DecidableEq, Repr, Inhabited

/-- The text of a file that was asked for under a path. -/
def FileEntry.read (entry : FileEntry) (path : String) : Except FileFault String :=
  match entry with
  | .text content => .ok content
  | .missing => .error (.missing path)
  | .throughFile => .error (.notDirectory path)
  | .nameTooLong => .error (.nameTooLong path)
  | .directory => .error .isDirectory

/-- A working directory. -/
structure Workspace where
  /-- Its path. -/
  directory : String
  /-- What is found under a path that starts at the working directory, or at the top. -/
  find : String → FileEntry

def pathSteps (path : String) : List String := (path.toList.splitOn '/').map String.ofList

/-! ## Resolving -/

/-- Takes the steps of a path, where `back` are the steps above, the last one first. The first step
    is the root and is never left. -/
def walkPath (root : String) (back : List String) : List String → List String
  | [] => root :: back.reverse
  | step :: rest =>
    if step = "" ∨ step = "." then walkPath root back rest
    else if step = ".." then walkPath root back.tail rest
    else walkPath root (step :: back) rest

/-- A path without dots and empty steps. -/
def normalPath (path : String) : String :=
  match pathSteps path with
  | [] => ""
  | root :: rest =>
    match walkPath root [] rest with
    | [""] => "/"
    | steps => "/".intercalate steps

/-- The path that a name stands for in a working directory. -/
def Workspace.resolve (w : Workspace) (name : String) : String :=
  if name.startsWith "/" then normalPath name else normalPath (w.directory ++ "/" ++ name)

/-! ## Following -/

/-- The length of the longest name of a file, in bytes. -/
def fileNameLimit : Nat := 255

/-- The length of the longest path, in bytes. -/
def pathLimit : Nat := 4095

/-- Files with the steps that lead to each from the working directory. -/
abbrev FileList := List (List String × String)

/-- What is found at the end of the given steps, in order. -/
def FileList.at (files : FileList) (steps : List String) : FileEntry :=
  match files.lookup steps with
  | some content => .text content
  | none => if files.any fun f => steps.isPrefixOf f.1 then .directory else .missing

/-- What is found in following the steps of a path. `back` are the steps from the working directory
    to where the path has led, the last one first; outside of it there are only directories. -/
def FileList.follow (files : FileList) (back : Option (List String)) (entry : FileEntry) :
    List String → FileEntry
  | [] => entry
  | step :: rest =>
    match entry with
    | .directory =>
      if step = "" ∨ step = "." then follow files back entry rest
      else if step = ".." then
        follow files (back.bind fun names => if names.isEmpty then none else some names.tail) .directory rest
      else if step.utf8ByteSize > fileNameLimit then .nameTooLong
      else
        match back with
        | none => .missing
        | some names => follow files (some (step :: names)) (files.at (step :: names).reverse) rest
    | .text _ => .throughFile
    | entry => entry

/-- What is found under a path in a directory that holds only the given files. -/
def FileList.find (files : FileList) (directory path : String) : FileEntry :=
  if path = "" then .missing
  else if path.utf8ByteSize > pathLimit then .nameTooLong
  else if path.startsWith (directory ++ "/") ∨ path = directory then
    files.follow (some []) .directory ((pathSteps path).drop (pathSteps directory).length)
  else files.follow (if path.startsWith "/" then none else some []) .directory (pathSteps path)

/-- A working directory that holds only the given files, each under its path from there. -/
def Workspace.ofFiles (directory : String) (files : List (String × String)) : Workspace :=
  let files : FileList := files.map fun f => (pathSteps f.1, f.2)
  ⟨directory, files.find directory⟩

end WorkflowCompiler
