/-!
# What can be wrong with a markup text

A text is first checked (`Misform`, with the place where the check stopped) and
then read by rules of its own (`ReadFault`), which can refuse a text that passed
the check. What is left is the number of root elements. An attribute of one name
makes the check itself give up.
-/
namespace WorkflowCompiler.Markup

/-- A place in a text. A line has no column where the fault is the absence of any tag. -/
structure Position where
  line : Nat
  column : Option Nat
deriving DecidableEq, Repr

/-- What is wrong with the attributes of a tag. -/
inductive AttributeMisform
  | noSpaceInFront (name : String)
  | withoutValue (name : String)
  | withoutEquals (name : String)
  | invalidName (name : String)
  | repeated (name : String)
deriving DecidableEq, Repr

/-- Why a text is not well formed. -/
inductive Misform
  | lateDeclaration
  | spaceAfterBracket
  | invalidTagName (tag : String)
  | openQuote (tag : String)
  | attribute (cause : AttributeMisform)
  | endTagNotClosed (tag : String)
  | endTagWithContent (tag : String)
  | endTagNotOpened (tag : String)
  | endTagMismatch (expected : String) (opened : Position) (found : String)
  | secondRoot
  | strayAmpersand
  | textAfterRoot
  | strayChar (found : Char)
  | noTag
  | unclosedTag (tag : String)
  | unclosedTags (tags : List String)
deriving DecidableEq, Repr

/-- Why a text that passed the check cannot be read. -/
inductive ReadFault
  | instructionNotClosed
  | commentNotClosed
  | literalNotClosed
  | endTagNotClosed
  | startTagNotClosed
  | tooDeep
  | reservedTag (name : String)
  | reservedAttribute (name : String)
  | tooManyExpansions (count : Nat)
  | tooLongExpansions (length : Nat)
  | textAfterDocument
  | literalAfterDocument
  | elementAfterDocument
  | notADoctype
  | unclosedDoctype
  | invalidDoctype
  | externalEntity
  | parameterEntity
  | invalidEntityName (name : String)
  | invalidElementName (name : String)
  | tooLongEntity (name : String) (length : Nat)
  | unquotedValue (found : Option Char)
  | unterminatedValue (what : String)
  | unterminatedContentModel
  | invalidContentModel (found : Option Char)
  | invalidNotation (found : String)
  | missingSystemIdentifier
deriving DecidableEq, Repr

/-- Why a text has no element tree. -/
inductive Fault
  | malformed (place : Position) (cause : Misform)
  /-- An attribute has taken the name that the check looks attributes up with. -/
  | uncheckable
  | unreadable (cause : ReadFault)
  | rootCount (found : Nat)
deriving DecidableEq, Repr

/-- The wording of a fault in attributes. -/
def AttributeMisform.message : AttributeMisform → String
  | .noSpaceInFront name => "Attribute '" ++ name ++ "' has no space in starting."
  | .withoutValue name => "Attribute '" ++ name ++ "' is without value."
  | .withoutEquals name => "boolean attribute '" ++ name ++ "' is not allowed."
  | .invalidName name => "Attribute '" ++ name ++ "' is an invalid name."
  | .repeated name => "Attribute '" ++ name ++ "' is repeated."

/-- A column, or the word for none. -/
def Position.columnText (p : Position) : String :=
  match p.column with
  | some c => toString c
  | none => "undefined"

/-- A character as it can stand in a message; a half of a pair does not stand alone. -/
def charText (c : Char) : String := if c.toNat < 0x10000 then c.toString else "\uFFFD"

/-- A list of tag names, four spaces in front of each. -/
def tagListText (tags : List String) : String :=
  "[" ++ ",".intercalate (tags.map fun t => "    \"" ++ t ++ "\"") ++ "]"

/-- The wording of a fault of form. -/
def Misform.message : Misform → String
  | .lateDeclaration => "XML declaration allowed only at the start of the document."
  | .spaceAfterBracket => "Invalid space after '<'."
  | .invalidTagName tag => "Tag '" ++ tag ++ "' is an invalid name."
  | .openQuote tag => "Attributes for '" ++ tag ++ "' have open quote."
  | .attribute cause => cause.message
  | .endTagNotClosed tag => "Closing tag '" ++ tag ++ "' doesn't have proper closing."
  | .endTagWithContent tag =>
    "Closing tag '" ++ tag ++ "' can't have attributes or invalid starting."
  | .endTagNotOpened tag => "Closing tag '" ++ tag ++ "' has not been opened."
  | .endTagMismatch expected opened found =>
    "Expected closing tag '" ++ expected ++ "' (opened in line " ++ toString opened.line ++ ", col " ++
      opened.columnText ++ ") instead of closing tag '" ++ found ++ "'."
  | .secondRoot => "Multiple possible root nodes found."
  | .strayAmpersand => "char '&' is not expected."
  | .textAfterRoot => "Extra text at the end"
  | .strayChar found => "char '" ++ charText found ++ "' is not expected."
  | .noTag => "Start tag expected."
  | .unclosedTag tag => "Unclosed tag '" ++ tag ++ "'."
  | .unclosedTags tags => "Invalid '" ++ tagListText tags ++ "' found."

/-- A character that was found, or the word for none. -/
def foundText : Option Char → String
  | some c => charText c
  | none => "undefined"

/-- How many entity expansions one document may hold. -/
def expansionLimit : Nat := 1000

/-- How many code units the expansions of declared entities may add to one document. -/
def expandedLengthLimit : Nat := 100000

/-- How many code units the value of an entity may have. -/
def entityLengthLimit : Nat := 10000

/-- The wording of a reading fault. -/
def ReadFault.message : ReadFault → String
  | .instructionNotClosed => "Pi Tag is not closed."
  | .commentNotClosed => "Comment is not closed."
  | .literalNotClosed => "CDATA is not closed."
  | .endTagNotClosed => "Closing Tag is not closed."
  | .startTagNotClosed => "Cannot read properties of undefined (reading 'tagName')"
  | .tooDeep => "Maximum nested tags exceeded"
  | .reservedTag name => "Invalid tag name: " ++ name
  | .reservedAttribute name =>
    "[SECURITY] Invalid name: \"" ++ name ++
      "\" is a reserved JavaScript keyword that could cause prototype pollution"
  | .tooManyExpansions count =>
    "Entity expansion limit exceeded: " ++ toString count ++ " > " ++ toString expansionLimit
  | .tooLongExpansions length =>
    "Total expanded content size exceeded: " ++ toString length ++ " > " ++ toString expandedLengthLimit
  | .textAfterDocument => "Cannot read properties of undefined (reading 'child')"
  | .literalAfterDocument => "Cannot read properties of undefined (reading 'tagname')"
  | .elementAfterDocument => "Cannot read properties of undefined (reading 'addChild')"
  | .notADoctype => "Invalid Tag instead of DOCTYPE"
  | .unclosedDoctype => "Unclosed DOCTYPE"
  | .invalidDoctype => "Invalid DOCTYPE"
  | .externalEntity => "External entities are not supported"
  | .parameterEntity => "Parameter entities are not supported"
  | .invalidEntityName name => "Invalid entity name " ++ name
  | .invalidElementName name => "Invalid element name: \"" ++ name ++ "\""
  | .tooLongEntity name length =>
    "Entity \"" ++ name ++ "\" size (" ++ toString length ++ ") exceeds maximum allowed size (" ++
      toString entityLengthLimit ++ ")"
  | .unquotedValue found => "Expected quoted string, found \"" ++ foundText found ++ "\""
  | .unterminatedValue what => "Unterminated " ++ what ++ " value"
  | .unterminatedContentModel => "Unterminated content model"
  | .invalidContentModel found => "Invalid Element Expression, found \"" ++ foundText found ++ "\""
  | .invalidNotation found => "Expected SYSTEM or PUBLIC, found \"" ++ found ++ "\""
  | .missingSystemIdentifier => "Missing mandatory system identifier for SYSTEM notation"

/-- Whether a reading fault is about a part that is not there, and not about the text as such. -/
def ReadFault.isMissingPart : ReadFault → Bool
  | .startTagNotClosed | .textAfterDocument | .literalAfterDocument | .elementAfterDocument => true
  | _ => false

/-- Why an element cannot be written. -/
inductive WriteFault
  /-- An element that stands for text has content. -/
  | textWithContent
  /-- An instruction has nothing in it. -/
  | emptyInstruction
  /-- An instruction begins with an element that has no text of its own. -/
  | instructionOfElements
  /-- What an instruction holds has no text form. -/
  | instructionWithoutText
deriving DecidableEq, Repr

/-- The wording of a writing fault. -/
def WriteFault.message : WriteFault → String
  | .textWithContent => "textValue.replace is not a function"
  | .emptyInstruction => "Cannot read properties of undefined (reading '#text')"
  | .instructionOfElements => "Cannot read properties of undefined (reading 'length')"
  | .instructionWithoutText => "Cannot convert object to primitive value"

def Fault.message : Fault → String
  | .malformed place cause =>
    "Malformed definition at line " ++ toString place.line ++ ", column " ++ place.columnText ++ ": " ++
      cause.message
  | .uncheckable => "attrNames.hasOwnProperty is not a function"
  | .unreadable cause => cause.message
  | .rootCount found =>
    "Definition must have exactly one root element, found " ++ toString found

end WorkflowCompiler.Markup
