import WorkflowCompiler.Markup.Fault
import WorkflowCompiler.Text.Cut
import WorkflowCompiler.Text.Units

/-!
# References

Characters that have a meaning in markup are written as references. Reading
replaces first the entities that the document declares, in order of declaration,
then four groups of references to fixed characters, and the references to the
ampersand last, so that an ampersand that was written as a reference never
becomes part of another one. The number of replacements in a document is limited,
and so is the length that declared entities add to it.
-/
namespace WorkflowCompiler.Markup
open Text (afterPrefix? units)

/-! ## Writing -/

/-- How a character stands in a text or an attribute value. -/
def escapeChar : Char → List Char
  | '&' => "&amp;".toList
  | '>' => "&gt;".toList
  | '<' => "&lt;".toList
  | '\'' => "&apos;".toList
  | '"' => "&quot;".toList
  | c => [c]

/-- How a text stands in markup. -/
def escape (cs : List Char) : List Char := cs.flatMap escapeChar

/-! ## Reading -/

/-- Replaces every occurrence in one pass from left to right. `found` gives the length of an
    occurrence at the front; `value` gives what stands in its place, from the text before it
    (reversed) and after it. The count of the occurrences is kept. -/
def replaceEach (found : List Char → Option Nat) (value : List Char → List Char → List Char) :
    List Char → Nat → List Char → List Char × Nat
  | _, _, [] => ([], 0)
  | before, skip + 1, c :: cs => replaceEach found value (c :: before) skip cs
  | before, 0, c :: cs =>
    match found (c :: cs) with
    | some len =>
      let r := replaceEach found value (c :: before) (len - 1) cs
      (value before ((c :: cs).drop len) ++ r.1, r.2 + 1)
    | none =>
      let r := replaceEach found value (c :: before) 0 cs
      (c :: r.1, r.2)

/-- The length of the first of some spellings that is at the front. -/
def foundSpelling (spellings : List (List Char)) (cs : List Char) : Option Nat :=
  (spellings.find? fun s => (afterPrefix? s cs).isSome).map List.length

/-- The characters with references of their own, and the references, in order of replacement. -/
def characterReferences : List (Char × List (List Char)) :=
  [('\'', ["&apos;".toList, "&#39;".toList, "&#x27;".toList]),
    ('>', ["&gt;".toList, "&#62;".toList, "&#x3E;".toList]),
    ('<', ["&lt;".toList, "&#60;".toList, "&#x3C;".toList]),
    ('"', ["&quot;".toList, "&#34;".toList, "&#x22;".toList])]

def ampersandReferences : List (List Char) := ["&amp;".toList, "&#38;".toList, "&#x26;".toList]

def replaceCharacter (value : Char) (spellings : List (List Char)) (cs : List Char) : List Char × Nat :=
  replaceEach (foundSpelling spellings) (fun _ _ => [value]) [] 0 cs

/-- What the value of a declared entity stands for. Two dollar signs are one; a dollar sign with
    a grave accent or an apostrophe is the text before or after the reference. -/
def fillTemplate (before after : List Char) : List Char → List Char
  | '$' :: '$' :: rest => '$' :: fillTemplate before after rest
  | '$' :: '\x60' :: rest => before.reverse ++ fillTemplate before after rest
  | '$' :: '\'' :: rest => after ++ fillTemplate before after rest
  | c :: rest => c :: fillTemplate before after rest
  | [] => []

/-- The entities a document declares, in order, and what has been replaced so far. -/
structure Expansions where
  declared : List (List Char × List Char) := []
  /-- How many references have been replaced. -/
  count : Nat := 0
  /-- How many code units declared entities have added, less those that they took away. -/
  growth : Int := 0
deriving DecidableEq, Repr

/-- Counts more replacements, up to the limit. -/
def Expansions.counted (x : Expansions) (more : Nat) : Except ReadFault Expansions :=
  if more > 0 ∧ x.count + more > expansionLimit then .error (.tooManyExpansions (x.count + more))
  else .ok { x with count := x.count + more }

/-- Adds to the growth, up to the limit. -/
def Expansions.grown (x : Expansions) (more : Int) : Except ReadFault Expansions :=
  let growth := x.growth + more
  if growth > expandedLengthLimit then .error (.tooLongExpansions growth.toNat) else .ok { x with growth }

/-- Replaces the references to declared entities. -/
def expandDeclared (x : Expansions) (cs : List Char) :
    List (List Char × List Char) → Except ReadFault (List Char × Expansions)
  | [] => .ok (cs, x)
  | (name, value) :: rest => do
    let found := foundSpelling ['&' :: name ++ [';']]
    let (filled, n) := replaceEach found (fun before after => fillTemplate before after value) [] 0 cs
    let x ← x.counted n
    expandDeclared (← x.grown (units filled - units cs)) filled rest

/-- Replaces the references to fixed characters other than the ampersand. -/
def expandCharacters (x : Expansions) (cs : List Char) :
    List (Char × List (List Char)) → Except ReadFault (List Char × Expansions)
  | [] => .ok (cs, x)
  | (value, spellings) :: rest => do
    let (cs, n) := replaceCharacter value spellings cs
    expandCharacters (← x.counted n) cs rest

/-- The text that markup stands for. -/
def expand (x : Expansions) (cs : List Char) : Except ReadFault (List Char × Expansions) :=
  if '&' ∉ cs then .ok (cs, x)
  else do
    let (cs, x) ← expandDeclared x cs x.declared
    if '&' ∉ cs then .ok (cs, x)
    else
      let (cs, x) ← expandCharacters x cs characterReferences
      .ok ((replaceCharacter '&' ampersandReferences cs).1, x)

end WorkflowCompiler.Markup
