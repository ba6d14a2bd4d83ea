import WorkflowCompiler.CommandLine.Similar
import WorkflowCompiler.JobConf

/-!
# What a command line asks for

The words of a command line are read twice. The first pass takes the options of
the whole program from anywhere in the line and looks for the command; from the
first option that it does not know on, everything it does not take is left for the
second pass, which reads the options of the command.
-/
namespace WorkflowCompiler.CommandLine
open JobConf (BadDefine)

inductive Command
  | validate | inspect
deriving DecidableEq, Repr

def Command.text : Command → String
  | .validate => "validate"
  | .inspect => "inspect"

def Command.ofText? (s : String) : Option Command :=
  [Command.validate, .inspect].find? fun c => c.text == s

structure Options where
  /-- The file of the job configuration. -/
  conf : Option String := none
  defines : List String := []
  checksForkJoin : Bool := true
  checksSchema : Bool := true
  json : Bool := false
deriving DecidableEq, Repr

/-- A command to be run. -/
structure Invocation where
  command : Command
  file : String
  options : Options := {}
  verbose : Bool := false
deriving DecidableEq, Repr

/-- What a command line asks for. -/
inductive Request
  | version
  | help
  | run (invocation : Invocation)
deriving DecidableEq, Repr

inductive ValueOption
  | conf | define
deriving DecidableEq, Repr

def ValueOption.usage : ValueOption → String
  | .conf => "--conf <file>"
  | .define => "-D, --define <key=value>"

/-- What is wrong with a command line. -/
inductive UsageFault
  /-- Nothing is asked for. -/
  | nothing
  | unknownOption (option : String) (known : List String)
  | unknownCommand (name : String)
  | missingFile
  | missingValue (option : ValueOption)
  | badDefine (fault : BadDefine)
deriving DecidableEq, Repr

def commandNames : List String := ["validate", "inspect", "help"]

def programOptions : List String := ["--version", "--verbose", "--help"]

/-- The options of a command in full, and those of the program. -/
def commandOptions : List String :=
  ["--conf", "--define", "--no-fork-join", "--no-schema", "--json", "--help"] ++ programOptions

def UsageFault.message : UsageFault → String
  | .nothing => "error: missing command"
  | .unknownOption option known => "error: unknown option '" ++ option ++ "'" ++
      if option.startsWith "--" then suggest option known else ""
  | .unknownCommand name => "error: unknown command '" ++ name ++ "'" ++ suggest name commandNames
  | .missingFile => "error: missing required argument 'file'"
  | .missingValue option => "error: option '" ++ option.usage ++ "' argument missing"
  | .badDefine fault =>
    "error: option '" ++ ValueOption.define.usage ++ "' argument '" ++ fault.define ++
      "' is invalid. " ++ fault.message

/-- Whether a word looks like an option: a hyphen with something after it. -/
def looksLikeOption (word : String) : Bool :=
  match word.toList with
  | '-' :: _ :: _ => true
  | _ => false

/-! ## The first pass -/

/-- What the first pass found. -/
structure Split where
  verbose : Bool := false
  /-- The words before the first option that is not known. -/
  operands : List String := []
  /-- The words from there on. -/
  rest : List String := []
deriving DecidableEq, Repr

/-- Whether a word asks for the version. The short option may have other letters behind it. -/
def asksVersion (word : String) : Bool := word == "--version" || word.startsWith "-V"

/-- Adds a word that is no option of the program. -/
def Split.add (s : Split) (word : String) : Split :=
  if looksLikeOption word || !s.rest.isEmpty then { s with rest := s.rest ++ [word] }
  else { s with operands := s.operands ++ [word] }

/-- The first pass; nothing if the version is asked for. Two hyphens end the options. -/
def split (s : Split) : List String → Option Split
  | [] => some s
  | word :: words =>
    if word = "--" then
      some (if s.rest.isEmpty then { s with operands := s.operands ++ words }
        else { s with rest := s.rest ++ word :: words })
    else if asksVersion word then none
    else if word = "--verbose" then split { s with verbose := true } words
    else split (s.add word) words

/-! ## The second pass -/

/-- What the second pass found. -/
structure Reading where
  options : Options := {}
  operands : List String := []
  /-- The first option that is not known, and the words after it. -/
  unknown : List String := []
deriving DecidableEq, Repr

def valueOption? (word : String) : Option ValueOption :=
  if word = "--conf" then some .conf
  else if word = "--define" ∨ word = "-D" then some .define
  else none

def attachedValue? (word : String) : Option (ValueOption × String) :=
  match word.toList with
  | '-' :: 'D' :: c :: cs => some (.define, String.ofList (c :: cs))
  | cs =>
    match Text.breakOn ['='] cs with
    | some (name, value) =>
      if name = "--conf".toList then some (.conf, String.ofList value)
      else if name = "--define".toList then some (.define, String.ofList value)
      else none
    | none => none

def Options.setValue (o : Options) (option : ValueOption) (value : String) : Except UsageFault Options :=
  match option with
  | .conf => .ok { o with conf := some value }
  | .define =>
    match JobConf.collectDefine value o.defines with
    | .ok defines => .ok { o with defines := defines }
    | .error fault => .error (.badDefine fault)

/-- Sets an option that takes no value, if the word is one. -/
def Options.setFlag? (o : Options) (word : String) : Option Options :=
  if word = "--no-fork-join" then some { o with checksForkJoin := false }
  else if word = "--no-schema" then some { o with checksSchema := false }
  else if word = "--json" then some { o with json := true }
  else none

/-- Adds a word that is no option of the command. -/
def Reading.add (r : Reading) (word : String) : Reading :=
  if looksLikeOption word || !r.unknown.isEmpty then { r with unknown := r.unknown ++ [word] }
  else { r with operands := r.operands ++ [word] }

/-- The second pass. Two hyphens end the options. -/
def readOptions (r : Reading) : List String → Except UsageFault Reading
  | [] => .ok r
  | word :: words =>
    if word = "--" then
      .ok (if r.unknown.isEmpty then { r with operands := r.operands ++ words }
        else { r with unknown := r.unknown ++ word :: words })
    else
      match valueOption? word, words with
      | some option, [] => .error (.missingValue option)
      | some option, value :: words =>
        match r.options.setValue option value with
        | .error fault => .error fault
        | .ok options => readOptions { r with options := options } words
      | none, words =>
        match r.options.setFlag? word, attachedValue? word with
        | some options, _ => readOptions { r with options := options } words
        | none, some (option, value) =>
          match r.options.setValue option value with
          | .error fault => .error fault
          | .ok options => readOptions { r with options := options } words
        | none, none => readOptions (r.add word) words

/-! ## Requests -/

def asksHelp (words : List String) : Bool := words.contains "-h" || words.contains "--help"

/-- The request for a command, whose operands and other words are given. -/
def commandRequest (command : Command) (verbose : Bool) (operands rest : List String) :
    Except UsageFault Request :=
  match readOptions {} rest with
  | .error fault => .error fault
  | .ok r =>
    if asksHelp r.unknown then .ok .help
    else
      match r.unknown with
      | option :: _ => .error (.unknownOption option commandOptions)
      | [] =>
        match operands ++ r.operands with
        | [] => .error .missingFile
        | file :: _ => .ok (.run { command, file, options := r.options, verbose })

/-- What a command line asks for. -/
def request (words : List String) : Except UsageFault Request :=
  match split {} words with
  | none => .ok .version
  | some s =>
    match s.operands with
    | [] =>
      if asksHelp s.rest then .ok .help
      else
        match s.rest with
        | [] => .error .nothing
        | option :: _ => .error (.unknownOption option programOptions)
    | name :: operands =>
      match Command.ofText? name with
      | some command => commandRequest command s.verbose operands s.rest
      | none =>
        if name = "help" ∨ asksHelp s.rest then .ok .help else .error (.unknownCommand name)

end WorkflowCompiler.CommandLine
