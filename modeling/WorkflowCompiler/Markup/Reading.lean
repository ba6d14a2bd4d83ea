import WorkflowCompiler.Markup.Doctype
import WorkflowCompiler.Markup.Element
import WorkflowCompiler.Markup.Reference
import WorkflowCompiler.Text.Units

/-!
# Reading markup into elements

The reader follows the brackets of a text and builds the elements that are open.
It does not check the form of the text again, and it goes by its own rules: end
tags close whatever is open, and an element that nothing closes ends with the
text. Text between tags is trimmed piece by piece. Elements of two names stand
for other things than elements, and do not show among them.
-/
namespace WorkflowCompiler.Markup
open Text

def attributesName : String := ":@"

def textName : String := "#text"

/-- The name of elements in which text in front of a child is dropped. -/
def deafName : String := "!xml"

/-- An element that is open, with its children in reverse order. -/
structure OpenElement where
  name : String
  attributes : List (String × String)
  text : List Char := []
  children : List Element := []

/-- The element that was open. Its text has no blanks at its ends. -/
def OpenElement.close (o : OpenElement) : Element :=
  { name := o.name, attributes := o.attributes, text := String.ofList (trimChars o.text),
    children := o.children.reverse }

/-- Puts an element in front of others, unless its name stands for attributes or text. -/
def consElement (e : Element) (others : List Element) : List Element :=
  if e.name = attributesName ∨ e.name = textName then others else e :: others

structure Reading where
  open_ : List OpenElement := []
  /-- The elements at the top, in reverse order. -/
  roots : List Element := []
  /-- Whether an end tag has closed the document itself. -/
  ended : Bool := false
  /-- The text since the last tag, in reverse order. -/
  pending : List Char := []
  expansions : Expansions := {}

namespace Reading

/-- Adds an element to the innermost open one, or to the top. -/
def addElement (r : Reading) (e : Element) : Reading :=
  match r.open_ with
  | [] => { r with roots := consElement e r.roots }
  | o :: outer => { r with open_ := { o with children := consElement e o.children } :: outer }

/-- Adds text to the innermost open element; text at the top is dropped. -/
def addText (r : Reading) (cs : List Char) : Reading :=
  match r.open_ with
  | [] => r
  | o :: outer => { r with open_ := { o with text := o.text ++ cs } :: outer }

/-- Adds the text since the last tag, with its references replaced. -/
def flush (r : Reading) : Except ReadFault Reading :=
  if r.pending.isEmpty then .ok r
  else if r.ended then .error .textAfterDocument
  else do
    let (cs, x) ← expand r.expansions (trimChars r.pending.reverse)
    .ok { (r.addText cs) with pending := [], expansions := x }

/-- Closes the innermost open element, or else the document. -/
def closeInnermost (r : Reading) : Reading :=
  match r.open_ with
  | [] => { r with ended := true }
  | o :: outer => { r with open_ := outer }.addElement o.close

end Reading

/-! ## Tags -/

/-- The text up to a closing mark outside quotes, and what is left after the mark. Tabs outside
    quotes become spaces. -/
def tagText (mark : List Char) : Option Char → List Char → Option (List Char × List Char)
  | _, [] => none
  | some q, c :: rest =>
    (tagText mark (if c = q then none else some q) rest).map fun r => (c :: r.1, r.2)
  | none, c :: rest =>
    match afterPrefix? mark (c :: rest) with
    | some after => some ([], after)
    | none =>
      (tagText mark (if isQuote c then some c else none) rest).map fun r =>
        ((if c = '\t' then ' ' else c) :: r.1, r.2)

/-- The name of an attribute without its namespace; a declaration of a namespace has none. -/
def localAttributeName (name : List Char) : List Char :=
  match name.splitOn ':' with
  | first :: rest =>
    if first = "xmlns".toList then []
    else match rest with
      | [second] => if name.head? = some '/' then '/' :: second else second
      | _ => name
  | [] => name

/-- Names no attribute can have. -/
def reservedAttributes : List String := ["constructor", "prototype", "__proto__"]

/-- Names that attributes bear with two underscores in front. -/
def guardedAttributes : List String :=
  ["hasOwnProperty", "toString", "valueOf", "__defineGetter__", "__defineSetter__", "__lookupGetter__",
    "__lookupSetter__"]

def attributeKey (name : String) : Except ReadFault String :=
  if name ∈ reservedAttributes then .error (.reservedAttribute name)
  else if name ∈ guardedAttributes then .ok ("__" ++ name)
  else .ok name

/-- Adds scanned attributes to those of a tag. -/
def readAttributes (x : Expansions) (attributes : List (String × String)) :
    List (List Char × Option (List Char)) → Except ReadFault (List (String × String) × Expansions)
  | [] => .ok (attributes, x)
  | (name, value) :: rest =>
    match localAttributeName name with
    | [] => readAttributes x attributes rest
    | short => do
      let key ← attributeKey (String.ofList short)
      match value with
      | none => readAttributes x attributes rest
      | some value =>
        let (cs, x) ← expand x (trimChars value)
        readAttributes x (putField key (String.ofList cs) attributes) rest

/-- A start tag: its name without the namespace, the text of its attributes, and whether it
    closes itself. -/
structure StartTag where
  name : List Char
  attributes : List Char
  closesItself : Bool
deriving DecidableEq, Repr

/-- The name after the first colon, or the whole name. -/
def localName (cs : List Char) : List Char :=
  if ':' ∈ cs then (cs.dropWhile (· != ':')).tail else cs

/-- The name of a tag without its namespace, with a slash if one is at its end. -/
def wholeName (cs : List Char) : List Char := localName (cs.takeWhile fun c => !isBlank c)

/-- Takes a tag apart. Without a blank in it a tag has no attributes; neither has one whose
    attributes spell its name. -/
def startTag (cs : List Char) : StartTag :=
  let name := wholeName cs
  match cs.dropWhile fun c => !isBlank c with
  | [] =>
    if cs.getLast? = some '/' then ⟨name.dropLast, [], true⟩ else ⟨name, [], false⟩
  | _ :: more =>
    let attributes := more.dropWhile isBlank
    let kept := fun attributes => if attributes = name then [] else attributes
    if attributes.getLast? = some '/' then
      if name.getLast? = some '/' then ⟨name.dropLast, [], true⟩
      else ⟨name, kept attributes.dropLast, true⟩
    else ⟨name, kept attributes, false⟩

def elementKey (name : List Char) : String :=
  let name := String.ofList name
  if name = "__proto__" then "#__proto__" else name

/-- How many elements can be open around another one that is open. -/
def nestingLimit : Nat := 100

namespace Reading

/-- Whether text in front of a start tag is dropped. -/
def dropsText (r : Reading) : Bool :=
  match r.open_ with
  | [] => true
  | o :: _ => o.name == deafName

/-- Opens an element, or adds one that closes itself. -/
def openTag (r : Reading) (tag : StartTag) : Except ReadFault Reading := do
  let r ← if r.dropsText then .ok { r with pending := [] } else r.flush
  if !tag.closesItself && r.open_.length > nestingLimit then .error .tooDeep
  else
    let (attributes, x) ← readAttributes r.expansions [] (collectAttributes tag.attributes)
    let r := { r with expansions := x }
    if r.ended then .error .elementAfterDocument
    else
      let o : OpenElement := { name := elementKey tag.name, attributes }
      .ok (if tag.closesItself then r.addElement o.close else { r with open_ := o :: r.open_ })

/-- The text of a literal section that ends at the given mark: what is between the ninth code unit
    after its bracket and the mark, whichever comes first. -/
def literalText (whole before : List Char) : List Char :=
  if 9 ≤ units before then dropUnits 9 before
  else (whole.take (whole.length - (dropUnits 9 whole).length)).drop before.length

/-- Adds a literal section, the text of which is taken as it is. -/
def addLiteral (r : Reading) (cs : List Char) : Except ReadFault Reading := do
  let r ← r.flush
  if r.ended then .error .literalAfterDocument else .ok (r.addText cs)

/-- Reads what begins with a bracket, which `cs` follows, and gives what is left after it. -/
def markup (r : Reading) (cs : List Char) : Except ReadFault (Reading × List Char) :=
  match cs with
  | '/' :: rest =>
    match breakOn ">".toList rest with
    | none => .error .endTagNotClosed
    | some (_, after) => do
      let r ← if r.ended then .ok { r with pending := [] } else r.flush
      .ok (r.closeInnermost, after)
  | '?' :: _ =>
    match tagText "?>".toList none cs with
    | none => .error .instructionNotClosed
    | some (_, after) => r.flush.map fun r => (r, after)
  | '!' :: '-' :: '-' :: rest =>
    match breakOn "-->".toList rest with
    | none => .error .commentNotClosed
    | some (_, after) => .ok (r, after)
  | '!' :: 'D' :: _ =>
    (doctype cs.tail).map fun d =>
      ({ r with expansions := { r.expansions with declared := d.1 } }, d.2)
  | '!' :: '[' :: _ =>
    match breakOn "]]>".toList ('<' :: cs) with
    | none => .error .literalNotClosed
    | some (before, after) =>
      (r.addLiteral (literalText ('<' :: cs) before)).map fun r => (r, after)
  | _ =>
    match tagText ">".toList none cs with
    | none => .error .startTagNotClosed
    | some (text, after) =>
      if wholeName text = textName.toList then .error (.reservedTag textName)
      else (r.openTag (startTag text)).map fun r => (r, after)

/-- Reads at most `fuel` characters and tags. -/
def readFrom : Nat → Reading → List Char → Except ReadFault Reading
  | 0, r, _ => .ok r
  | _ + 1, r, [] => .ok r
  | fuel + 1, r, c :: rest =>
    if c = '<' then
      match r.markup rest with
      | .error fault => .error fault
      | .ok (r, after) => readFrom fuel r after
    else readFrom fuel { r with pending := c :: r.pending } rest

/-- Closes what is still open at the end of the text. -/
def closeAll : List OpenElement → List Element → List Element
  | [], roots => roots
  | [o], roots => consElement o.close roots
  | o :: p :: outer, roots =>
    closeAll ({ p with children := consElement o.close p.children } :: outer) roots
termination_by os => os.length

end Reading

/-- A text in which every line ends with a line feed alone. -/
def normalizeLines : List Char → List Char
  | '\r' :: '\n' :: rest => '\n' :: normalizeLines rest
  | '\r' :: rest => '\n' :: normalizeLines rest
  | c :: rest => c :: normalizeLines rest
  | [] => []

def readElements (text : List Char) : Except ReadFault (List Element) := do
  let text := normalizeLines text
  let r ← Reading.readFrom (text.length + 1) {} text
  .ok (Reading.closeAll r.open_ r.roots).reverse

end WorkflowCompiler.Markup
