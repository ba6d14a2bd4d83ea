import WorkflowCompiler.Json.Writer
import WorkflowCompiler.Yaml.Node

/-!
# The texts of keys

The fields of a value are named by texts. A scalar names a field by its value, a
collection by how it is written as a flow collection: padded, with the quotes and
the spelling that its scalars had where they still serve, on one line unless it is
too wide.
-/
namespace WorkflowCompiler.Yaml
open Decimal
open Text (units)

/-! ## Numbers -/

/-- Numbers with an exponent throughout. -/
def scientific : Notation := ⟨Binary64.decimalReach, Binary64.decimalReach, "e", "+", ".nan", ".inf"⟩

/-- The natural number that `m * 2 ^ q` is, or the one below it. -/
def wholePart (m : Nat) (q : Int) : Nat := if 0 ≤ q then m * Nat.pow 2 q.natAbs else m / Nat.pow 2 q.natAbs

/-- How many places a spelling asks for: those behind its point, if the last one is zero. -/
def askedPlaces (source : List Char) : Nat :=
  if source.getLast? = some '0' then (source.dropWhile (· != '.')).length - 1 else 0

/-- A decimal with zeros at its end up to the given number of places. -/
def padPlaces (places : Nat) (text : List Char) : List Char :=
  if places = 0 ∨ 'e' ∈ text then text
  else
    let found := (text.dropWhile (· != '.')).length - 1
    (if '.' ∈ text then text else text ++ ['.']) ++ List.replicate (places - found) '0'

/-- A number as it is written where it was spelled like this: in the same base, with an exponent, or
    with as many places. -/
def numberSpelling (source : List Char) : Binary64 → List Char
  | .nan => ".nan".toList
  | .infinite negative => if negative then "-.inf".toList else ".inf".toList
  | .finite negative m q =>
    let n := Binary64.finite negative m q
    match source with
    | '0' :: 'o' :: _ => '0' :: 'o' :: Nat.toDigits 8 (wholePart m q)
    | '0' :: 'x' :: _ => '0' :: 'x' :: Nat.toDigits 16 (wholePart m q)
    | _ =>
      if 'e' ∈ source ∨ 'E' ∈ source then
        if m = 0 then "0e+0".toList else (n.text scientific).toList
      else
        padPlaces (askedPlaces source) (if m = 0 ∧ negative then ['-', '0'] else (n.text plain).toList)

/-! ## Texts -/

/-- Where a scalar is written: how far its lines are indented, and whether it is a key, which stays on
    its line. -/
structure Spot where
  indent : Nat
  isKey : Bool

/-- Spaces up to an indent. -/
def spaces (n : Nat) : List Char := List.replicate n ' '

/-- A control character that is only written as an escape. -/
def needsEscape (c : Char) : Bool :=
  c.toNat ≤ 0x08 || (0x0B ≤ c.toNat && c.toNat ≤ 0x1F) || (0x7F ≤ c.toNat && c.toNat ≤ 0x9F)

def hasNeighbours (related : Char → Char → Bool) (cs : List Char) : Bool :=
  (cs.zip cs.tail).any fun e => related e.1 e.2

/-- A character that a text without quotes does not begin with. -/
def isIndicator (c : Char) : Bool :=
  isBlankChar c || ['\n', '#', '&', '*', '!', '|', '>', '\'', '"', '%', '@', '\x60'].contains c

/-- A character that a text without quotes does not end with. -/
def isLooseEnd (c : Char) : Bool := isBlankChar c || c == '\n' || c == ':' || c == '-'

/-- Whether a text without quotes would be taken for a mark, a comment or a line break between two
    neighbours. -/
def partsBetween (a b : Char) : Bool :=
  ((a == '\n' || a == ':') && isBlankChar b) || (isBlankChar a && b == '\n') ||
    ((isBlankChar a || a == '\n') && b == '#')

/-- Whether a text is a mark, or begins with one and white space. -/
def beginsWithMark : List Char → Bool
  | c :: rest => (c == '-' || c == '?') && (rest.head?.map isBlankChar).getD true
  | [] => false

/-- Whether a text cannot be written without quotes inside brackets. -/
def needsQuotes (isKey : Bool) (cs : List Char) : Bool :=
  (isKey && cs.contains '\n') || cs.any isFlowIndicator || (cs.head?.map isIndicator).getD false ||
    beginsWithMark cs || hasNeighbours partsBetween cs || (cs.getLast?.map isLooseEnd).getD false

/-- A text in which each run of line feeds is followed by one more line break and an indent. -/
def breakLines (indent : Nat) : List Char → List Char
  | [] => []
  | '\n' :: rest =>
    if rest.head? = some '\n' then '\n' :: breakLines indent rest
    else '\n' :: '\n' :: spaces indent ++ breakLines indent rest
  | c :: rest => c :: breakLines indent rest

/-- How a character other than a line feed stands in double quotes. -/
def escapedChar (c : Char) : List Char :=
  if c = '\x00' then ['\\', '0']
  else if c = '\x07' then ['\\', 'a']
  else if c = '\x0b' then ['\\', 'v']
  else if c = '\x1b' then ['\\', 'e']
  else
    match Json.quotedChar c with
    | '\\' :: 'u' :: '0' :: '0' :: digits => '\\' :: 'x' :: digits
    | cs => cs

/-- The inside of double quotes. Where lines may be broken, line feeds are written as blank lines, but
    for one at the end; `broken` tells that the text goes on in a new line. -/
def escapedChars (indent : Option Nat) (broken : Bool) (cs : List Char) : List Char :=
  match cs, indent with
  | [], _ => []
  | '\n' :: rest, none => '\\' :: 'n' :: escapedChars none false rest
  | '\n' :: rest, some n =>
    if rest.isEmpty then (if broken then spaces n else []) ++ ['\\', 'n']
    else (if broken then ['\n'] else ['\n', '\n']) ++ escapedChars (some n) true rest
  | c :: rest, _ =>
    let lead := if broken then spaces (indent.getD 0) else []
    let escape := c == ' ' && (broken || rest.head? == some '\n')
    lead ++ (if escape then ['\\', ' '] else escapedChar c) ++ escapedChars indent false rest

/-- How long a text in double quotes must be for its lines to be broken. -/
def longText : Nat := 40

def doubleQuoted (spot : Spot) (cs : List Char) : List Char :=
  let stays := spot.isKey || units (Json.quoted (String.ofList cs)) < longText
  '"' :: escapedChars (if stays then none else some spot.indent) false cs ++ ['"']

/-- A text in single quotes, or in double ones where white space at a line break would be lost. -/
def singleQuoted (spot : Spot) (cs : List Char) : List Char :=
  if (spot.isKey && '\n' ∈ cs) ||
      hasNeighbours (fun a b => isBlankChar a && b == '\n' || a == '\n' && isBlankChar b) cs then
    doubleQuoted spot cs
  else
    '\'' :: breakLines spot.indent (cs.flatMap fun c => if c = '\'' then ['\'', '\''] else [c]) ++ ['\'']

/-- A text with the quotes that it had, if they serve. -/
def textSpelling (spot : Spot) (kind : TokenKind) (cs : List Char) : List Char :=
  if cs.any needsEscape then doubleQuoted spot cs
  else
    match kind with
    | .doubleQuoted => doubleQuoted spot cs
    | .singleQuoted => singleQuoted spot cs
    | _ =>
      if needsQuotes spot.isKey cs then
        if '"' ∈ cs ∧ '\'' ∉ cs then singleQuoted spot cs else doubleQuoted spot cs
      else breakLines spot.indent cs

def scalarSpelling (spot : Spot) (kind : TokenKind) (text : List Char) : Value → List Char
  | .number n => numberSpelling text n
  | .text _ => textSpelling spot kind text
  | _ => text

/-! ## Collections -/

/-- The width beyond which a collection is not on one line. -/
def lineWidth : Nat := 80

/-- Items with commas between them. -/
def withCommas : List (List Char) → List (List Char)
  | [] => []
  | [last] => [last]
  | item :: rest => (item ++ [',']) :: withCommas rest

/-- Items in brackets: each on a line of its own if one of them has a line break or together they are
    too wide. -/
def bracketed (indent : Nat) (opening closing : Char) (items : List (List Char)) : List Char :=
  if items.isEmpty then [opening, closing]
  else
    let lines := withCommas items
    if items.any ('\n' ∈ ·) || lineWidth < lines.foldr (fun l n => units l + 2 + n) 2 then
      opening :: lines.flatMap (fun l => '\n' :: spaces (indent + 2) ++ l) ++ '\n' :: spaces indent ++ [closing]
    else opening :: ' ' :: (lines.intersperse [' ']).flatten ++ [' ', closing]

def Node.isCollection : Node → Bool
  | .scalar .. => false
  | _ => true

/-- The text of an entry without a value. -/
def keyAlone (isCollection : Bool) (key : List Char) : List Char :=
  if key.isEmpty then ['?'] else if isCollection then '?' :: ' ' :: key else key

/-- The text of an entry at an indent. A key that is a collection has a mark and its own line. -/
def entryText (indent : Nat) (key value : Node) (keyText valueText : List Char) : List Char :=
  let gap :=
    if !key.isCollection && value.isCollection && '\n' ∈ valueText then '\n' :: spaces (indent + 2)
    else if valueText.isEmpty then []
    else [' ']
  (if key.isCollection then '?' :: ' ' :: keyText ++ '\n' :: spaces indent else keyText) ++
    ':' :: gap ++ valueText

mutual

/-- A node as it is written inside brackets, at an indent. -/
def Node.spelling (spot : Spot) : Node → List Char
  | .scalar kind text value => scalarSpelling spot kind text value
  | .list items => bracketed spot.indent '[' ']' (itemSpellings (spot.indent + 4) items)
  | .mapping entries =>
    bracketed spot.indent '{' '}'
      (entrySpellings (spot.indent + 2) (entries.any fun e => e.2.isSome) entries)

/-- The texts of items. -/
def itemSpellings (indent : Nat) : List Node → List (List Char)
  | [] => []
  | item :: rest => item.spelling ⟨indent, false⟩ :: itemSpellings indent rest

/-- The texts of entries. Where none has a value, keys need not stay on their lines. -/
def entrySpellings (indent : Nat) (haveValues : Bool) : List (Node × Option Node) → List (List Char)
  | [] => []
  | (key, value) :: rest =>
    let keyText := key.spelling ⟨indent + 2, haveValues && !key.isCollection⟩
    let text := match value with
      | none => keyAlone key.isCollection keyText
      | some v => entryText indent key v keyText (v.spelling ⟨indent + 2, false⟩)
    text :: entrySpellings indent haveValues rest

end

def Node.fieldName : Node → String
  | .scalar _ _ value =>
    match value with
    | .bool b => if b then "true" else "false"
    | .number n => n.text Decimal.plain
    | .text s => s
    | _ => ""
  | key => String.ofList (key.spelling ⟨0, false⟩)

end WorkflowCompiler.Yaml
