import WorkflowCompiler.Markup.Attribute
import WorkflowCompiler.Text.Capitals
import WorkflowCompiler.Text.Cut
import WorkflowCompiler.Text.Units

/-!
# Document types

A document type may declare entities in brackets. Other declarations are passed
over; only their outer form is looked at. The keywords of identifiers are told
by the capital form of the six code units where they should be.
-/
namespace WorkflowCompiler.Markup
open Text (isBlank afterPrefix? capitals takeUnits dropUnits units)

/-- A name up to the next blank, and what is left. -/
def blankTerminated (cs : List Char) : List Char × List Char :=
  (cs.takeWhile fun c => !isBlank c, cs.dropWhile fun c => !isBlank c)

/-- Refuses what is not a name. -/
def checkEntityName (name : List Char) : Except ReadFault Unit :=
  if isName name then .ok () else .error (.invalidEntityName (String.ofList name))

/-- A value in quotes, and what is left. -/
def identifierValue (what : String) : List Char → Except ReadFault (List Char × List Char)
  | [] => .error (.unquotedValue none)
  | q :: cs =>
    if !isQuote q then .error (.unquotedValue (some q))
    else if q ∈ cs then .ok (cs.takeWhile (· != q), (cs.dropWhile (· != q)).tail)
    else .error (.unterminatedValue what)

/-- The capital form of what stands where a keyword should be. -/
def keywordAt (cs : List Char) : List Char := capitals (takeUnits 6 cs)

/-- The name and the value of an entity declaration, and what is left. -/
def entityDeclaration (cs : List Char) : Except ReadFault ((List Char × List Char) × List Char) := do
  let cs := cs.dropWhile isBlank
  let inName := fun c => !isBlank c && !isQuote c
  let name := cs.takeWhile inName
  checkEntityName name
  let rest := (cs.dropWhile inName).dropWhile isBlank
  if keywordAt rest = "SYSTEM".toList then .error .externalEntity
  else if rest.head? = some '%' then .error .parameterEntity
  else
    let (value, rest) ← identifierValue "entity" rest
    if units value > entityLengthLimit then .error (.tooLongEntity (String.ofList name) (units value))
    else .ok ((name, value), rest)

/-- What is left after the name and the content model of an element declaration. -/
def elementDeclaration (cs : List Char) : Except ReadFault (List Char) := do
  let (name, rest) := blankTerminated (cs.dropWhile isBlank)
  if !isName name then .error (.invalidElementName (String.ofList name))
  let rest := rest.dropWhile isBlank
  match afterPrefix? "EMPTY".toList rest, afterPrefix? "ANY".toList rest, rest with
  | some rest, _, _ => .ok rest
  | none, some rest, _ => .ok rest
  | none, none, '(' :: rest =>
    if ')' ∈ rest then .ok (rest.dropWhile (· != ')')).tail else .error .unterminatedContentModel
  | none, none, rest => .error (.invalidContentModel rest.head?)

/-- What is left after the name and the identifiers of a notation. -/
def notationDeclaration (cs : List Char) : Except ReadFault (List Char) := do
  let (name, rest) := blankTerminated (cs.dropWhile isBlank)
  checkEntityName name
  let rest := rest.dropWhile isBlank
  let kind := keywordAt rest
  let rest := (dropUnits 6 rest).dropWhile isBlank
  if kind = "PUBLIC".toList then
    let (_, rest) ← identifierValue "publicIdentifier" rest
    match rest.dropWhile isBlank with
    | q :: more =>
      if isQuote q then
        let (_, rest) ← identifierValue "systemIdentifier" (q :: more)
        .ok rest
      else .ok (q :: more)
    | [] => .ok []
  else if kind = "SYSTEM".toList then
    let (value, rest) ← identifierValue "systemIdentifier" rest
    if value.isEmpty then .error .missingSystemIdentifier else .ok rest
  else .error (.invalidNotation (String.ofList kind))

/-- A declaration whose text after the bracket is given: the entity it declares, if it does,
    and what is left. Nothing where the text begins like no declaration. -/
def declaration? (cs : List Char) :
    Option (Except ReadFault (Option (List Char × List Char) × List Char)) :=
  match afterPrefix? "!ENTITY".toList cs with
  | some rest => some ((entityDeclaration rest).map fun r => (some r.1, r.2))
  | none =>
    match afterPrefix? "!ELEMENT".toList cs with
    | some rest => some ((elementDeclaration rest).map fun r => (none, r))
    | none =>
      match afterPrefix? "!ATTLIST".toList cs with
      | some rest => some (.ok (none, rest))
      | none =>
        (afterPrefix? "!NOTATION".toList cs).map fun rest =>
          (notationDeclaration rest).map fun r => (none, r)

/-- Declares an entity; a value that holds an ampersand is ignored, and a name that is declared
    again keeps its place. -/
def declare (entity : List Char × List Char) (declared : List (List Char × List Char)) :
    List (List Char × List Char) :=
  if '&' ∈ entity.2 then declared
  else if declared.any fun e => e.1 == entity.1 then
    declared.map fun e => if e.1 = entity.1 then entity else e
  else declared ++ [entity]

/-- Where the reading of a document type stands: how many brackets are open, whether the part in
    square brackets was reached, and, in a comment, the last two characters read. -/
structure DoctypeState where
  depth : Nat := 1
  hasBody : Bool := false
  comment : Option (Option Char × Option Char) := none
  declared : List (List Char × List Char) := []

/-- The entities of a document type, whose text after the keyword is given, and what is left. -/
def doctypeBody : Nat → DoctypeState → List Char →
    Except ReadFault (List (List Char × List Char) × List Char)
  | 0, _, _ => .error .unclosedDoctype
  | _ + 1, _, [] => .error .unclosedDoctype
  | fuel + 1, st, c :: rest =>
    match st.comment with
    | some (last, previous) =>
      if c = '>' ∧ last = some '-' ∧ previous = some '-' then
        doctypeBody fuel { st with comment := none, depth := st.depth - 1 } rest
      else
        doctypeBody fuel
          { st with comment := some (some c, last), hasBody := st.hasBody || c == '[' } rest
    | none =>
      if c = '<' then
        match if st.hasBody then declaration? rest else none with
        | some (.error fault) => .error fault
        | some (.ok (none, more)) => doctypeBody fuel { st with depth := st.depth + 1 } more
        | some (.ok (some entity, more)) =>
          doctypeBody fuel
            { st with depth := st.depth + 1, declared := declare entity st.declared } more
        | none =>
          if (afterPrefix? "!--".toList rest).isSome then
            doctypeBody fuel { st with depth := st.depth + 1, comment := some (none, none) } rest
          else .error .invalidDoctype
      else if c = '>' then
        if st.depth ≤ 1 then .ok (st.declared, rest)
        else doctypeBody fuel { st with depth := st.depth - 1 } rest
      else doctypeBody fuel { st with hasBody := st.hasBody || c == '[' } rest

/-- The entities of the document type at the front, whose text after `<!` is given, and what is
    left after it. -/
def doctype (cs : List Char) : Except ReadFault (List (List Char × List Char) × List Char) :=
  match afterPrefix? "DOCTYPE".toList cs with
  | none => .error .notADoctype
  | some rest => doctypeBody (rest.length + 1) {} rest

end WorkflowCompiler.Markup
