import WorkflowCompiler.Definition.Build
import WorkflowCompiler.Definition.Parameters
import WorkflowCompiler.Definition.Schema
import WorkflowCompiler.Graph.ForkJoin
import WorkflowCompiler.Site.Config

/-!
# Compiling definitions

The text of a definition becomes a sealed graph whose structure has been checked,
and whose forks and joins have been checked too unless the site or the job
configuration says otherwise. The job configuration takes the default values of
parameters and the global defaults that are handed on; it keeps them when a later
step fails.
-/
namespace WorkflowCompiler

/-- What a compiler tells on its way. -/
inductive Progress
  | schemaPassed
  | built (workflow : String) (nodes : Nat)
  | structureValid (report : StructureReport)
  | forkJoinPassed
  | forkJoinSkipped
deriving DecidableEq, Repr

/-- The wording of a notice. -/
def Progress.message : Progress → String
  | .schemaPassed => "Schema validation passed"
  | .built workflow nodes =>
    "Built workflow [" ++ workflow ++ "] with " ++ toString nodes ++ " node(s)"
  | .structureValid report =>
    "Structure valid: " ++ toString report.visitedCount ++ " reachable node(s), " ++
      toString report.forks.length ++ " fork(s), " ++ toString report.joins.length ++ " join(s)"
  | .forkJoinPassed => "Fork/join validation passed"
  | .forkJoinSkipped => "Fork/join validation disabled"

structure Compiler where
  site : SiteConfig := {}
  /-- The action types, where they are not those of the site. -/
  types : Option Registry := none
  checksSchema : Bool := false

structure Compiled where
  graph : Graph
  structureReport : StructureReport

/-- What a compilation leaves besides its result. -/
structure Session where
  /-- The job configuration. -/
  conf : Dict String
  /-- What was told so far. -/
  progress : List Progress := []

/-- The entry of a job configuration that switches the check of forks and joins. -/
def forkJoinKey : String := "workflow.validate.fork-join"

/-- A switch in a job configuration. Only `true` and `false` count, in any case. -/
def readSwitch (conf : Dict String) (key : String) (otherwise : Bool) : Bool :=
  match (conf.get? key).map fun s => (Text.trim s).toLower with
  | some "true" => true
  | some "false" => false
  | _ => otherwise

namespace Compiler
open Definition Markup

/-- The action types of a compiler: unless it is given others, the built-in ones and those that the site adds. -/
def registry (c : Compiler) : Registry := c.types.getD (.withBuiltins c.site.actions)

/-- What a build of the compiler depends on, with the default layer of a call. -/
def builder (c : Compiler) (layer : Option (Dict String)) : Builder :=
  { inheritance := ⟨c.registry, c.site.endpoints⟩
    layer := some (c.site.configuration.overlay (layer.getD .empty)) }

/-- Whether forks and joins are checked with a job configuration. -/
def checksForkJoin (c : Compiler) (conf : Dict String) : Bool :=
  readSwitch conf forkJoinKey true && c.site.checksForkJoin

/-- Tells something. -/
def tell (s : Session) (p : Progress) : Session := { s with progress := s.progress ++ [p] }

/-- A step on the job configuration alone. -/
def onConf {α : Type} (s : Session) (a : Attempt (Dict String) α) : Attempt Session α :=
  ⟨{ s with conf := a.state }, a.result⟩

def checkForm (c : Compiler) (definition : String) (s : Session) : Attempt Session Unit :=
  if c.checksSchema then
    (Attempt.ofExcept s (validateSchema definition)).andThen fun s _ => .succeed (tell s .schemaPassed) ()
  else .succeed s ()

def readDefinition (definition : String) (s : Session) : Attempt Session Element :=
  match Markup.parse definition with
  | .ok root => .succeed s root
  | .error cause => .fail s (.markup cause)

def checkGraph (c : Compiler) (g : Graph) (s : Session) : Attempt Session StructureReport :=
  (Attempt.ofExcept s (g.checkStructure c.registry)).andThen fun s report =>
    let s := tell s (.structureValid report)
    if c.checksForkJoin s.conf then
      (Attempt.ofExcept s (g.checkForkJoin report)).andThen fun s _ =>
        .succeed (tell s .forkJoinPassed) report
    else .succeed (tell s .forkJoinSkipped) report

/-- Compiles a definition. The layer lies over the configuration of the site and under all others. -/
def compile (c : Compiler) (definition : String) (conf : Dict String)
    (layer : Option (Dict String) := none) : Attempt Session Compiled :=
  (c.checkForm definition ⟨conf, []⟩).andThen fun s _ =>
    (readDefinition definition s).andThen fun s root =>
      (onConf s (verifyParameters root s.conf)).andThen fun s _ =>
        (onConf s (build (c.builder layer) root s.conf)).andThen fun s g =>
          (c.checkGraph g (tell s (.built g.name g.size))).andThen fun s report =>
            .succeed s ⟨g.sealNodes, report⟩

end Compiler
end WorkflowCompiler
