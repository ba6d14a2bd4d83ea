import WorkflowCompiler.Markup.Fault

/-!
# What can go wrong when a definition is compiled

One constructor for every cause, with what its message names. A fault has a code,
a message and often the name of the node it is about. Three causes have no code: a
text whose form cannot be checked, one that passed the check and still cannot be
read, and an element that cannot be written.
-/
namespace WorkflowCompiler

/-- The codes under which faults are reported. -/
inductive FaultCode
  | schemaViolation
  | markupParseFailure
  | unknownElement
  | duplicateNode
  | invalidIdentifier
  | invalidExpression
  | danglingTransition
  | cycleDetected
  | unsupportedActionType
  | missingRequiredDefault
  | unbalancedForkJoinCount
  | forkDuplicateTarget
  | joinWithoutFork
  | joinForkMismatch
  | illegalNodeRevisit
  | parallelBranchUnjoinedEnd
  | parameterVerificationFailure
  | internalError
deriving DecidableEq, Repr

def FaultCode.text : FaultCode → String
  | .schemaViolation => "SCHEMA_VIOLATION"
  | .markupParseFailure => "MARKUP_PARSE_FAILURE"
  | .unknownElement => "UNKNOWN_ELEMENT"
  | .duplicateNode => "DUPLICATE_NODE"
  | .invalidIdentifier => "INVALID_IDENTIFIER"
  | .invalidExpression => "INVALID_EXPRESSION"
  | .danglingTransition => "DANGLING_TRANSITION"
  | .cycleDetected => "CYCLE_DETECTED"
  | .unsupportedActionType => "UNSUPPORTED_ACTION_TYPE"
  | .missingRequiredDefault => "MISSING_REQUIRED_DEFAULT"
  | .unbalancedForkJoinCount => "UNBALANCED_FORK_JOIN_COUNT"
  | .forkDuplicateTarget => "FORK_DUPLICATE_TARGET"
  | .joinWithoutFork => "JOIN_WITHOUT_FORK"
  | .joinForkMismatch => "JOIN_FORK_MISMATCH"
  | .illegalNodeRevisit => "ILLEGAL_NODE_REVISIT"
  | .parallelBranchUnjoinedEnd => "PARALLEL_BRANCH_UNJOINED_END"
  | .parameterVerificationFailure => "PARAMETER_VERIFICATION_FAILURE"
  | .internalError => "INTERNAL_ERROR"

/-- Why an expression has no value. -/
inductive ExpressionFault
  | unterminated (expression : String)
  | unsupported (body : String)
  | undefinedVariable (name : String)
deriving DecidableEq, Repr

def ExpressionFault.message : ExpressionFault → String
  | .unterminated expression => "Unterminated expression in '" ++ expression ++ "'"
  | .unsupported body => "Unsupported expression '$\x7b" ++ body ++ "\x7d'"
  | .undefinedVariable name => "Variable '" ++ name ++ "' is not defined"

/-- How an element departs from the schema. -/
inductive SchemaMisfit
  | wrongRoot (expected : String)
  | missingAttribute (key : String)
  | tooFew (least : Nat) (tag : String) (found : Nat)
  | tooMany (most : Nat) (tag : String) (found : Nat)
  | actionTypeCount (found : Nat)
  | unexpectedElement (tag : String)
  | startCount (found : Nat)
deriving DecidableEq, Repr

/-- The wording of a departure. -/
def SchemaMisfit.message : SchemaMisfit → String
  | .wrongRoot expected => "Invalid literal value, expected \"" ++ expected ++ "\""
  | .missingAttribute key => "missing required attribute '" ++ key ++ "'"
  | .tooFew least tag found =>
    "expected at least " ++ toString least ++ " <" ++ tag ++ ">, found " ++ toString found
  | .tooMany most tag found =>
    "expected at most " ++ toString most ++ " <" ++ tag ++ ">, found " ++ toString found
  | .actionTypeCount found =>
    "expected exactly one action type element, found " ++ toString found
  | .unexpectedElement tag => "unexpected element <" ++ tag ++ ">"
  | .startCount found => "expected exactly one <start>, found " ++ toString found

/-- A departure from the schema, with the way from the root to the element or attribute. -/
structure SchemaIssue where
  path : List String
  misfit : SchemaMisfit
deriving DecidableEq, Repr

/-- The wording of an issue in a document with the given root. -/
def SchemaIssue.message (root : String) (i : SchemaIssue) : String :=
  (if i.path.isEmpty then root else ".".intercalate i.path) ++ ": " ++ i.misfit.message

/-- Why a definition cannot be compiled. -/
inductive Fault
  | markup (cause : Markup.Fault)
  | missingAttribute (element : String) (owner : Option String) (key : String)
  | schema (root : String) (issues : List SchemaIssue)
  | propertyWithoutName (element : String)
  | unreadableGlobals
  | unknownElement (name : String)
  | duplicateNode (node : String)
  | sealedGraph (workflow node : String)
  | noStartNode (workflow : String)
  | noStartElement (workflow : String)
  | longNodeName (node : String)
  | illegalNodeName (node : String)
  | incompleteDecision (node : String)
  | unwritable (cause : Markup.WriteFault)
  | actionWithoutType (node : String)
  | actionWithoutTransitions (node : String)
  | invalidRetry (node key : String) (cause : ExpressionFault)
  | danglingTransition (source target : Option String)
  | cycleClosing (node : String) (cycle : List String)
  | cycleOnPath (node : String) (path : List String)
  | unsupportedActionOf (node type : String)
  | unsupportedType (type : String) (node : Option String)
  | unreadableAction (node : String) (cause : Markup.Fault)
  | missingEndpoint (field type : String) (node : Option String)
  | unbalancedForks (forks joins : Nat)
  | duplicateForkTarget (fork target : String)
  | joinWithoutFork (join : String)
  | joinMismatch (fork join : String) (expected : Option String)
  | revisit (node : String)
  | unjoinedEnd (parent : Option String) (fork stop : String)
  | parameterWithoutName
  | missingParameters (names : List String)
deriving DecidableEq, Repr

/-- The longest name a node may have, in code units. -/
def nodeNameLimit : Nat := 128

/-- A name, or the word for none. -/
def nameOrUndefined (name : Option String) : String := name.getD "undefined"

namespace Fault

def code? : Fault → Option FaultCode
  | .markup .uncheckable => none
  | .markup (.unreadable _) => none
  | .unwritable _ => none
  | .markup _ => some .markupParseFailure
  | .missingAttribute .. => some .schemaViolation
  | .schema .. => some .schemaViolation
  | .propertyWithoutName _ => some .markupParseFailure
  | .unreadableGlobals => some .markupParseFailure
  | .unknownElement _ => some .unknownElement
  | .duplicateNode _ => some .duplicateNode
  | .sealedGraph .. => some .internalError
  | .noStartNode _ => some .schemaViolation
  | .noStartElement _ => some .schemaViolation
  | .longNodeName _ => some .invalidIdentifier
  | .illegalNodeName _ => some .invalidIdentifier
  | .incompleteDecision _ => some .schemaViolation
  | .actionWithoutType _ => some .schemaViolation
  | .actionWithoutTransitions _ => some .schemaViolation
  | .invalidRetry .. => some .invalidExpression
  | .danglingTransition .. => some .danglingTransition
  | .cycleClosing .. => some .cycleDetected
  | .cycleOnPath .. => some .cycleDetected
  | .unsupportedActionOf .. => some .unsupportedActionType
  | .unsupportedType .. => some .unsupportedActionType
  | .unreadableAction .. => some .internalError
  | .missingEndpoint .. => some .missingRequiredDefault
  | .unbalancedForks .. => some .unbalancedForkJoinCount
  | .duplicateForkTarget .. => some .forkDuplicateTarget
  | .joinWithoutFork _ => some .joinWithoutFork
  | .joinMismatch .. => some .joinForkMismatch
  | .revisit _ => some .illegalNodeRevisit
  | .unjoinedEnd .. => some .parallelBranchUnjoinedEnd
  | .parameterWithoutName => some .parameterVerificationFailure
  | .missingParameters _ => some .parameterVerificationFailure

def node? : Fault → Option String
  | .missingAttribute _ owner _ => owner
  | .duplicateNode node => some node
  | .sealedGraph _ node => some node
  | .longNodeName node => some node
  | .illegalNodeName node => some node
  | .incompleteDecision node => some node
  | .actionWithoutType node => some node
  | .actionWithoutTransitions node => some node
  | .invalidRetry node _ _ => some node
  | .danglingTransition source _ => source
  | .cycleClosing node _ => some node
  | .cycleOnPath node _ => some node
  | .unsupportedActionOf node _ => some node
  | .unsupportedType _ node => node
  | .unreadableAction node _ => some node
  | .missingEndpoint _ _ node => node
  | .duplicateForkTarget fork _ => some fork
  | .joinWithoutFork join => some join
  | .joinMismatch _ join _ => some join
  | .revisit node => some node
  | .unjoinedEnd parent _ _ => parent
  | _ => none

/-- The owner of an attribute in brackets, if it has a name. -/
def ownerText : Option String → String
  | none => ""
  | some owner => if owner = "" then "" else " [" ++ owner ++ "]"

def message : Fault → String
  | .markup cause => cause.message
  | .missingAttribute element owner key =>
    "Element <" ++ element ++ ">" ++ ownerText owner ++ " is missing required attribute '" ++
      key ++ "'"
  | .schema root issues =>
    "Schema violation: " ++ "; ".intercalate (issues.map (SchemaIssue.message root))
  | .propertyWithoutName element =>
    "Error while processing <" ++ element ++ ">: property without a name"
  | .unreadableGlobals => "Error while processing global section conf"
  | .unknownElement name => "Invalid workflow element [" ++ name ++ "]"
  | .duplicateNode node => "Node [" ++ node ++ "] is defined more than once"
  | .sealedGraph workflow node =>
    "Workflow [" ++ workflow ++ "] is sealed; cannot add node [" ++ node ++ "]"
  | .noStartNode workflow => "Workflow [" ++ workflow ++ "] has no start node"
  | .noStartElement workflow => "Workflow [" ++ workflow ++ "] has no <start>"
  | .longNodeName node =>
    "Node name [" ++ node ++ "] is longer than " ++ toString nodeNameLimit ++ " characters"
  | .illegalNodeName node =>
    "Node name [" ++ node ++
      "] must start with a letter or '_' and contain only letters, digits, '-' or '_'"
  | .incompleteDecision node => "Decision [" ++ node ++ "] needs a <switch> with a <default>"
  | .unwritable cause => cause.message
  | .actionWithoutType node => "Action [" ++ node ++ "] has no action type element"
  | .actionWithoutTransitions node =>
    "Action [" ++ node ++ "] needs both <ok> and <error> transitions"
  | .invalidRetry node key cause =>
    "Action [" ++ node ++ "] has an invalid " ++ key ++ " value: " ++ cause.message
  | .danglingTransition source target =>
    "Node [" ++ nameOrUndefined source ++ "] transitions to undefined node [" ++
      nameOrUndefined target ++ "]"
  | .cycleClosing node cycle =>
    "Cycle detected closing at node [" ++ node ++ "]: " ++ " -> ".intercalate cycle
  | .cycleOnPath node path =>
    "Cycle detected at node [" ++ node ++ "]: " ++ " -> ".intercalate path
  | .unsupportedActionOf node type =>
    "Action [" ++ node ++ "] uses unsupported action type [" ++ type ++ "]"
  | .unsupportedType type _ => "Action type [" ++ type ++ "] is not supported"
  | .unreadableAction node cause =>
    "Configuration of action [" ++ node ++ "] is not a readable document: " ++ cause.message
  | .missingEndpoint field type _ =>
    "No " ++ field ++ " defined for action type [" ++ type ++ "]"
  | .unbalancedForks forks joins =>
    "Workflow has " ++ toString forks ++ " fork node(s) but " ++ toString joins ++ " join node(s)"
  | .duplicateForkTarget fork target =>
    "Fork [" ++ fork ++ "] routes to node [" ++ target ++ "] more than once"
  | .joinWithoutFork join => "Join [" ++ join ++ "] has no matching fork"
  | .joinMismatch fork join expected =>
    "Fork [" ++ fork ++ "] and join [" ++ join ++ "] are not a pair (join should have been [" ++
      nameOrUndefined expected ++ "])"
  | .revisit node => "Node [" ++ node ++ "] would execute more than once at runtime"
  | .unjoinedEnd parent fork stop =>
    "Node [" ++ nameOrUndefined parent ++ "] inside fork [" ++ fork ++ "] goes to end node [" ++
      stop ++ "] without joining"
  | .parameterWithoutName => "Parameter declaration has an empty name"
  | .missingParameters names => "Missing value for parameter(s): " ++ ", ".intercalate names

end Fault
end WorkflowCompiler
