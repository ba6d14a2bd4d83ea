import WorkflowCompiler.Site.Config
import WorkflowCompiler.Site.Merge
import WorkflowCompiler.Yaml.Document

/-!
# Where the configuration of a site comes from

The configuration is read from three layers: the defaults, the site's file if
there is one, and what is given by hand, each over the one before.
-/
namespace WorkflowCompiler.Site

def readDocument (entry : Except FileFault String) : Except Unreadable Value :=
  match entry with
  | .error fault => .error (.file fault)
  | .ok text =>
    match Yaml.read? text with
    | some v => .ok v
    | none => .error .notYaml

/-- The fields of a mapping; an empty document has none. -/
def documentFields : Value → Option (List (String × Value))
  | .mapping fields => some fields
  | .null => some []
  | _ => none

def readSiteFile (entry : Except FileFault String) : Except ConfigFault (List (String × Value)) :=
  match readDocument entry with
  | .error reason => .error (.unreadableSite reason)
  | .ok v =>
    match documentFields v with
    | some fields => .ok fields
    | none => .error .siteNotMapping

def defaultFields : List (String × Value) :=
  match ({} : SiteConfig).toValue with
  | .mapping fields => fields
  | _ => []

/-- The configuration of the layers above the defaults, the lowest first. -/
def configOfLayers (layers : List (List (String × Value))) : Except ConfigFault SiteConfig :=
  SiteConfig.ofValue (layers.foldl (fun l upper => merge l.own upper) ⟨defaultFields, .absent⟩).toValue

/-- What can be given by hand: the entries of a site's file, if there is one, and fields to be
    written over them. -/
structure Sources where
  file : Option (Except FileFault String) := none
  overrides : List (String × Value) := []

def load (s : Sources) : Except ConfigFault SiteConfig :=
  match s.file with
  | none => configOfLayers [s.overrides]
  | some entry =>
    match readSiteFile entry with
    | .error fault => .error fault
    | .ok fields => configOfLayers [fields, s.overrides]

/-- What a working directory has under the name of a site's file. -/
def fileIn (w : Workspace) : Option (Except FileFault String) :=
  match w.find (w.resolve siteFileName) with
  | .missing => none
  | .throughFile => none
  | entry => some (entry.read siteFileName)

end WorkflowCompiler.Site
