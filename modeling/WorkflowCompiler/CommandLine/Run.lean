import WorkflowCompiler.CommandLine.Request
import WorkflowCompiler.Report.Terminal

/-!
# Running commands

Both commands compile a definition from a working directory. They differ in what
they report of a workflow that compiles, and in how they report a failure as data.
-/
namespace WorkflowCompiler.CommandLine

def version : String := "0.1.0"

/-- What a command leaves behind. -/
structure Outcome where
  stdout : String := ""
  stderr : String := ""
  exit : Nat := 0
deriving DecidableEq, Repr

/-- A compilation from files, with what was told on the way. -/
structure Compilation where
  /-- Which messages are shown. -/
  threshold : LogLevel := .info
  messages : List String := []
  result : Except RunFault Compiled

/-- The fields that options write over the configuration of a site. -/
def siteOverrides (o : Options) : List (String × Value) :=
  if o.checksForkJoin then [] else [("validation", .mapping [("forkJoin", .bool false)])]

def compileText (site : SiteConfig) (o : Options) (definition : String) (conf : Dict String) :
    List String × Except RunFault Compiled :=
  let a := Compiler.compile { site, checksSchema := o.checksSchema } definition conf
  (a.state.progress.map Progress.message, a.result.mapError RunFault.workflow)

/-- Compiles a file. The configuration of the site is read first, then that of the job, then the
    definition. -/
def compileFile (w : Workspace) (i : Invocation) : Compilation :=
  match Site.load { file := Site.fileIn w, overrides := siteOverrides i.options } with
  | .error fault => { result := .error (.config fault) }
  | .ok site =>
    let threshold := if i.verbose then .debug else site.logLevel
    match JobConf.load w i.options.conf i.options.defines with
    | .error fault => { threshold, result := .error (.config fault) }
    | .ok conf =>
      let path := w.resolve i.file
      match (w.find path).read path with
      | .error fault => { threshold, result := .error (.file fault) }
      | .ok definition =>
        let (messages, result) := compileText site i.options definition conf
        { threshold, messages := ("Validating " ++ path) :: messages, result }

/-- Lines, each with a line break after it. -/
def linesText (lines : List String) : String := String.join (lines.map fun l => l ++ "\n")

def logLines (time : String) (c : Compilation) : List String :=
  if c.threshold.shows .debug then c.messages.map (LogLevel.debug.line time) else []

/-- What a command prints of a workflow that compiles. -/
def successLines (i : Invocation) (c : Compiled) : List String :=
  match i.command with
  | .validate =>
    let s := Report.summary c
    [if i.options.json then Json.indented (Report.summaryValue s) else Report.summaryText false s]
  | .inspect =>
    let rows := Report.nodeRows c
    if i.options.json then [Json.indented (Report.nodesValue c.graph.name rows)]
    else [c.graph.name, Report.nodesText false rows]

/-- The outcome of a failure: data on the standard output where a command has such a report, else
    lines on the error output. -/
def failureOutcome (i : Invocation) (logged : List String) (f : Failure) : Outcome :=
  if i.command = .validate ∧ i.options.json then
    { stdout := linesText [Json.indented (Report.failureValue f)], stderr := linesText logged, exit := 1 }
  else { stderr := linesText (logged ++ [Report.failureText false f]), exit := 1 }

/-- Runs a command in a working directory. -/
def runCommand (w : Workspace) (time : String) (i : Invocation) : Outcome :=
  let c := compileFile w i
  let logged := logLines time c
  match c.result with
  | .ok compiled => { stdout := linesText (successLines i compiled), stderr := linesText logged }
  | .error fault => failureOutcome i logged (Report.failure fault)

/-- How the program is used. -/
def usage : String :=
  linesText
    ["Usage: wfgraph [options] [command]", "",
      "Validate workflow definitions and compile them into execution graphs", "",
      "Options:",
      "  -V, --version              output the version number",
      "  --verbose                  Enable debug logging",
      "  -h, --help                 display help for command", "",
      "Commands:",
      "  validate [options] <file>  Validate a workflow definition",
      "  inspect [options] <file>   Validate a workflow definition and list its nodes",
      "  help [command]             display help for command"]

/-- Runs a command line in a working directory. -/
def run (w : Workspace) (time : String) (words : List String) : Outcome :=
  match request words with
  | .error .nothing => { stderr := usage, exit := 1 }
  | .error fault => { stderr := linesText [fault.message], exit := 1 }
  | .ok .version => { stdout := linesText [version] }
  | .ok .help => { stdout := usage }
  | .ok (.run i) => runCommand w time i

end WorkflowCompiler.CommandLine
