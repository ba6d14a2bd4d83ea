import WorkflowCompiler.Markup.Document

/-!
# Writing elements

One element a line, its children on lines of their own with an indent of two
more spaces, its text right after its tag. An element without content closes
itself. Three kinds of names are written in their own way: the name for
attributes is passed over, the name for text stands for text without characters,
and a name with a question mark in front makes an instruction, which holds the
text it begins with and nothing else.
-/
namespace WorkflowCompiler.Markup
open Text (trimChars breakOn)

/-- The attributes of a tag, each with a space in front. -/
def printAttributes (attributes : List (String × String)) : List Char :=
  attributes.flatMap fun a => ' ' :: a.1.toList ++ "=\"".toList ++ escape a.2.toList ++ ['"']

def isInstruction (name : String) : Bool := name.toList.head? == some '?'

/-- The name of the instruction that stands on the line of what is before it. -/
def declarationName : String := "?xml"

def shownAsText (elements : List Element) : Except WriteFault (List Char) :=
  if elements.any fun e => e.name == "toString" then .error .instructionWithoutText
  else .ok (",".intercalate (elements.map fun _ => "[object Object]")).toList

/-- What stands between the name and the attributes of an instruction: the text it begins with,
    behind a space and as it is. -/
def instructionText (text : String) (children : List Element) : Except WriteFault (List Char) :=
  if text ≠ "" then .ok (' ' :: text.toList)
  else match children with
    | [] => .error .emptyInstruction
    | first :: _ =>
      if first.name ≠ textName then .error .instructionOfElements
      else if first.text = "" ∧ first.children.isEmpty then .ok []
      else
        let items := if first.text = "" then first.children else .ofText textName first.text :: first.children
        (shownAsText items).map fun shown => ' ' :: shown

/-- Whether a mark occurs in a text. -/
def holds (mark : String) (cs : List Char) : Bool := (breakOn mark.toList cs).isSome

/-- A tag with its content. The end tag has a line of its own after the end of another tag; content
    with a tag in it that ends otherwise has lines of its own. -/
def printTag (lineStart start content : List Char) (name : String) : List Char :=
  let stop := "</".toList ++ name.toList ++ ['>']
  if content.isEmpty then start ++ "/>".toList
  else if content.getLast? = some '>' then start ++ '>' :: content ++ lineStart ++ stop
  else if holds "/>" content || holds "</" content then
    start ++ '>' :: lineStart ++ "  ".toList ++ content ++ lineStart ++ stop
  else start ++ '>' :: content ++ stop

mutual

/-- An element behind a line break and an indent, and whether a tag was written last, given whether
    one was before. -/
def printElement (lineStart : List Char) (afterTag : Bool) :
    Element → Except WriteFault (List Char × Bool)
  | ⟨name, attributes, text, children⟩ =>
    if name = attributesName then .ok ([], afterTag)
    else if name = textName then
      if text = "" ∧ children.isEmpty then .ok (if afterTag then lineStart else [], false)
      else .error .textWithContent
    else
      let start := '<' :: name.toList
      if isInstruction name then
        (instructionText text children).map fun inside =>
          ((if name = declarationName then [] else lineStart) ++ start ++ inside ++
            printAttributes attributes ++ "?>".toList, true)
      else
        (printElements (lineStart ++ "  ".toList) false children).map fun nested =>
          (printTag lineStart (lineStart ++ start ++ printAttributes attributes)
            (escape text.toList ++ nested) name, true)

def printElements (lineStart : List Char) (afterTag : Bool) :
    List Element → Except WriteFault (List Char)
  | [] => .ok []
  | e :: rest =>
    match printElement lineStart afterTag e with
    | .error fault => .error fault
    | .ok (written, afterTag) =>
      (printElements lineStart afterTag rest).map fun more => written ++ more

end

def serialize (e : Element) : Except WriteFault String :=
  (printElement ['\n'] false e).map fun r => String.ofList (trimChars r.1)

end WorkflowCompiler.Markup
