import WorkflowCompiler.Codec.Base64
import WorkflowCompiler.Codec.Utf8
import WorkflowCompiler.Codec.Zlib
import WorkflowCompiler.Globals.Basic
import WorkflowCompiler.Json.Reader
import WorkflowCompiler.Json.Writer

/-!
# Encoded global defaults

Global defaults are handed to another workflow as one opaque text: JSON,
compressed, in base 64.
-/
namespace WorkflowCompiler.GlobalDefaults

def toValue (g : GlobalDefaults) : Value :=
  .mapping
    [("jobTracker", Value.ofText? g.jobTracker),
      ("nameNode", Value.ofText? g.nameNode),
      ("jobXmls", .list (g.jobXmls.map .text)),
      ("configuration", match g.configuration with
        | none => .absent
        | some d => .list (d.entries.map fun e => .list [.text e.1, .text e.2]))]

def readOptionalText : Value → Option (Option String)
  | .absent => some none
  | .text s => some (some s)
  | _ => none

def readText : Value → Option String
  | .text s => some s
  | _ => none

def readTexts : Value → Option (List String)
  | .list items => items.mapM readText
  | _ => none

def readPair : Value → Option (String × String)
  | .list [.text key, .text value] => some (key, value)
  | _ => none

def readPairs : Value → Option (Option (Dict String))
  | .absent => some none
  | .list items => (items.mapM readPair).map fun es => some (Dict.ofList es)
  | _ => none

/-- The defaults that a value holds, if it has their shape. Other fields do not matter. -/
def ofValue? : Value → Option GlobalDefaults
  | .mapping fields => do
    let jobTracker ← readOptionalText (Value.field fields "jobTracker")
    let nameNode ← readOptionalText (Value.field fields "nameNode")
    let jobXmls ← readTexts (Value.field fields "jobXmls")
    let configuration ← readPairs (Value.field fields "configuration")
    pure { jobTracker, nameNode, jobXmls, configuration }
  | _ => none

def encodeText (s : String) : String :=
  String.ofList (Codec.encodeBase64 (Codec.compress (Codec.encodeUtf8 s.toList)))

/-- The text that was compressed. -/
def decodeText? (blob : String) : Option String :=
  (Codec.decompress (Codec.decodeBase64 blob)).map fun bs => String.ofList (Codec.decodeUtf8 bs)

def encode (g : GlobalDefaults) : String := encodeText (Json.compact g.toValue)

/-- The defaults of an opaque text, if it has some. -/
def decode? (blob : String) : Option GlobalDefaults := do
  let text ← decodeText? blob
  let value ← Json.read text
  ofValue? value

/-- The defaults of an opaque text. -/
def decode (blob : String) : Except Fault GlobalDefaults :=
  match decode? blob with
  | some g => .ok g
  | none => .error .unreadableGlobals

end WorkflowCompiler.GlobalDefaults
