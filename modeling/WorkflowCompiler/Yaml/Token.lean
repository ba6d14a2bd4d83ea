import WorkflowCompiler.Text.Cut
import WorkflowCompiler.Text.Units

/-!
# YAML tokens

A text is cut into tokens: scalars with their quotes, brackets, marks, comments,
line breaks and runs of blanks, so that the tokens of a text make up the text.
Where a scalar over several lines ends depends on how far its lines are indented;
inside brackets a comma, a bracket or a colon ends it as well. A token knows its
place, and the indent that its line had reached in front of it.

Directives, tags, anchors, aliases, block scalars and question marks for keys are
not read, nor is a bracket that is left open on a line indented too little.
-/
namespace WorkflowCompiler.Yaml
open Text (afterPrefix? units)

inductive TokenKind
  | byteOrderMark
  /-- Content begins without a marker. It takes no characters. -/
  | contentStart
  | documentStart
  | documentEnd
  | space
  | newline
  | comment
  | comma
  /-- The dash in front of an item. -/
  | itemMark
  /-- The colon in front of a value. -/
  | valueMark
  | openList
  | closeList
  | openMapping
  | closeMapping
  | plain
  | singleQuoted
  | doubleQuoted
deriving DecidableEq, Repr

structure Token where
  kind : TokenKind
  text : List Char
  /-- How many code units are before it. -/
  offset : Nat := 0
  /-- The indent that its line has reached. -/
  indent : Nat := 0
deriving DecidableEq, Repr

/-! ## Classes of characters -/

/-- White space inside a line. -/
def isBlankChar (c : Char) : Bool := c == ' ' || c == '\t'

/-- A character that has a meaning in flow collections. -/
def isFlowIndicator (c : Char) : Bool := c == ',' || c == '[' || c == ']' || c == '{' || c == '}'

/-- Whether a text begins with white space, or is at its end. -/
def startsWithGap : List Char → Bool
  | [] => true
  | c :: _ => isBlankChar c || c == '\n' || c == '\r'

/-- Whether a text begins with a character that has a meaning in flow collections. -/
def startsWithIndicator : List Char → Bool
  | [] => false
  | c :: _ => isFlowIndicator c

/-- Whether nothing is left of a line. -/
def isLineEnd : List Char → Bool
  | [] => true
  | '\n' :: _ => true
  | '\r' :: '\n' :: _ => true
  | _ => false

/-- How many characters are left of a line. -/
def lineLength : List Char → Nat
  | [] => 0
  | '\n' :: _ => 0
  | '\r' :: '\n' :: _ => 0
  | _ :: rest => lineLength rest + 1

/-- The marker of three characters at the front of a line, if one is there. -/
def marker? (cs : List Char) : Option TokenKind :=
  match afterPrefix? "---".toList cs, afterPrefix? "...".toList cs with
  | some rest, _ => if startsWithGap rest then some .documentStart else none
  | none, some rest => if startsWithGap rest then some .documentEnd else none
  | none, none => none

/-! ## The ends of scalars -/

/-- Whether a scalar goes on in a line with this text: it is blank, or indented by at least the
    given width. Where any indent is enough, a marker of a document ends the scalar. -/
def continuesScalar (least : Nat) (line : List Char) : Bool :=
  if least = 0 then (marker? line).isNone
  else
    let indent := (line.takeWhile (· == ' ')).length
    match line.dropWhile (· == ' ') with
    | '\n' :: _ => true
    | '\r' :: '\n' :: _ => true
    | _ => least ≤ indent

/-- Whether a plain scalar ends at white space in front of this text. -/
def endsPlain (inFlow : Bool) (cs : List Char) : Bool :=
  cs.head? == some '#' || (inFlow && startsWithIndicator cs)

/-- How many characters a plain scalar takes. `seen` of them have been looked at and `kept` of those
    belong to it for sure. -/
def plainLength (inFlow : Bool) (least seen kept : Nat) : List Char → Nat
  | [] => kept
  | ':' :: rest =>
    if startsWithGap rest || (inFlow && startsWithIndicator rest) then kept
    else plainLength inFlow least (seen + 1) (seen + 1) rest
  | '\r' :: '\n' :: rest =>
    if endsPlain inFlow rest || !continuesScalar least rest then kept
    else plainLength inFlow least (seen + 2) kept rest
  | '\n' :: rest =>
    if endsPlain inFlow rest || !continuesScalar least rest then kept
    else plainLength inFlow least (seen + 1) kept rest
  | '\r' :: rest =>
    if endsPlain inFlow rest then seen + 1
    else plainLength inFlow least (seen + 1) (seen + 1) rest
  | c :: rest =>
    if isBlankChar c then
      if endsPlain inFlow rest then kept else plainLength inFlow least (seen + 1) kept rest
    else if inFlow && isFlowIndicator c then kept
    else plainLength inFlow least (seen + 1) (seen + 1) rest

/-- How many characters there are up to the quote that closes a scalar in single quotes, that quote
    included. -/
def singleQuotedLength? : List Char → Option Nat
  | [] => none
  | '\'' :: '\'' :: rest => (singleQuotedLength? rest).map (· + 2)
  | '\'' :: _ => some 1
  | _ :: rest => (singleQuotedLength? rest).map (· + 1)

/-- How many characters there are up to the quote that closes a scalar in double quotes, that quote
    included. -/
def doubleQuotedLength? : List Char → Option Nat
  | [] => none
  | ['\\'] => none
  | '\\' :: _ :: rest => (doubleQuotedLength? rest).map (· + 2)
  | '"' :: _ => some 1
  | _ :: rest => (doubleQuotedLength? rest).map (· + 1)

/-- The place of the first line break among the next `room` characters after which a scalar does not
    go on. -/
def brokenOffAt? (least : Nat) : Nat → List Char → Option Nat
  | 0, _ => none
  | _, [] => none
  | room + 1, '\n' :: rest =>
    if continuesScalar least rest then (brokenOffAt? least room rest).map (· + 1) else some 0
  | room + 1, _ :: rest => (brokenOffAt? least room rest).map (· + 1)

/-- How many characters a quoted scalar takes, its opening quote included. Without a closing quote it
    takes all; it ends early in front of a line that does not continue it. -/
def quotedLength (least : Nat) (quote : Char) (rest : List Char) : Nat :=
  match if quote = '"' then doubleQuotedLength? rest else singleQuotedLength? rest with
  | none => rest.length + 1
  | some n =>
    match brokenOffAt? least (n - 1) rest with
    | none => n + 1
    | some k => if (rest.take k).getLast? = some '\r' then k else k + 1

/-! ## The scan -/

/-- What a scan looks for next. -/
inductive Mode
  /-- The beginning of a document. -/
  | outside
  | lineStart
  /-- Marks at the beginning of a line. -/
  | lineMarks
  | content
  /-- The inside of brackets. -/
  | inFlow
deriving DecidableEq, Repr

structure Scan where
  /-- What is left of the text. -/
  rest : List Char
  /-- The tokens so far, the last one first. -/
  tokens : List Token := []
  /-- The least indent of a line that continues a scalar. -/
  least : Nat := 0
  /-- The indent of the line, marks included. -/
  indent : Nat := 0
  /-- How many brackets are open. -/
  depth : Nat := 0
  /-- Whether a colon may follow without white space after it. -/
  afterKey : Bool := false

namespace Scan

/-- Takes the next `n` characters as a token. -/
def take (s : Scan) (kind : TokenKind) (n : Nat) : Scan :=
  { s with rest := s.rest.drop n, tokens := ⟨kind, s.rest.take n, 0, 0⟩ :: s.tokens }

/-- Takes blanks, and says how many. -/
def takeBlanks (s : Scan) (isBlank : Char → Bool) : Scan × Nat :=
  match (s.rest.takeWhile isBlank).length with
  | 0 => (s, 0)
  | n + 1 => (s.take .space (n + 1), n + 1)

/-- Takes spaces and tabs. -/
def blanks (s : Scan) : Scan := (s.takeBlanks isBlankChar).1

/-- Takes a line break, if there is one. -/
def lineBreak (s : Scan) : Scan :=
  match s.rest with
  | '\n' :: _ => s.take .newline 1
  | '\r' :: '\n' :: _ => s.take .newline 2
  | _ => s

def comment (s : Scan) : Scan := s.take .comment (lineLength s.rest)

/-- Takes a plain scalar. -/
def plain (s : Scan) : Scan := s.take .plain (plainLength (s.depth > 0) s.least 0 0 s.rest)

/-- Takes a scalar that begins with a quote. -/
def quoted (s : Scan) (quote : Char) : Scan :=
  s.take (if quote = '"' then .doubleQuoted else .singleQuoted)
    (quotedLength s.least quote s.rest.tail)

/-- How many of the given characters come next, with one that is none of them. -/
def runLength (s : Scan) (isOne : Char → Bool) : Nat := (s.rest.takeWhile isOne).length + 1

/-- Takes marks that stand one after the other. -/
def marks : Nat → Scan → Option Scan
  | 0, s => some s
  | fuel + 1, s =>
    match s.rest with
    | [] => some s
    | c :: rest =>
      if c = '!' ∨ c = '&' then none
      else if (c = '-' ∨ c = '?' ∨ c = ':') ∧
          (startsWithGap rest || (s.depth > 0 && startsWithIndicator rest)) then
        if c = '?' then none
        else
          let s := if s.depth > 0 then { s with afterKey := false } else { s with least := s.indent + 1 }
          marks fuel (s.take (if c = '-' then .itemMark else .valueMark) 1).blanks
      else some s

/-- Takes all marks that come next. -/
def allMarks (s : Scan) : Option Scan :=
  s.marks (s.runLength fun c => c == '-' || c == ':' || isBlankChar c)

/-- Takes commas that stand one after the other. -/
def commas : Nat → Scan → Scan
  | 0, s => s
  | fuel + 1, s =>
    match s.rest with
    | ',' :: _ => commas fuel { (s.take .comma 1).blanks with afterKey := false }
    | _ => s

/-- Takes all commas that come next. -/
def allCommas (s : Scan) : Scan := s.commas (s.runLength fun c => c == ',' || isBlankChar c)

/-- Takes line breaks and blanks, and gives the indent of the last line that begins there. -/
def breaks : Nat → Option Nat → Scan → Scan × Option Nat
  | 0, indent, s => (s, indent)
  | fuel + 1, indent, s =>
    match s.rest with
    | [] => (s, indent)
    | c :: _ =>
      if isLineEnd s.rest then
        let (s, n) := s.lineBreak.takeBlanks (· == ' ')
        breaks fuel (some n) { s with indent := n }.blanks
      else if isBlankChar c then breaks fuel indent s.blanks
      else (s, indent)

/-- Takes all line breaks and blanks that come next. -/
def allBreaks (s : Scan) : Scan × Option Nat :=
  s.breaks (s.runLength fun c => c == '\n' || c == '\r' || isBlankChar c) none

/-- Takes what comes before a document: blank lines and comments. -/
def outside (s : Scan) : Option (Mode × Scan) :=
  let s := if s.rest.head? = some '\uFEFF' then s.take .byteOrderMark 1 else s
  if s.rest.head? = some '%' then none
  else
    let rest := s.rest.dropWhile isBlankChar
    if isLineEnd rest || rest.head? == some '#' then
      let s := s.blanks
      let s := if s.rest.head? = some '#' then s.comment else s
      some (.outside, s.lineBreak)
    else some (.lineStart, s.take .contentStart 0)

/-- Takes the beginning of a line: a marker, or the indent. -/
def lineStart (s : Scan) : Mode × Scan :=
  match marker? s.rest with
  | some kind =>
    (if kind = .documentStart then .content else .outside,
      { s.take kind 3 with indent := 0, least := 0 })
  | none =>
    let (s, n) := s.takeBlanks (· == ' ')
    (.lineMarks,
      { s with indent := n, least := if s.least > n ∧ !startsWithGap (s.rest.drop 1) then n else s.least })

/-- Takes a mark at the beginning of a line. -/
def lineMarks (s : Scan) : Option (Mode × Scan) :=
  match s.rest with
  | [] => some (.content, s)
  | c :: rest =>
    if (c = '-' ∨ c = '?' ∨ c = ':') ∧ startsWithGap rest then
      if c = '?' then none
      else
        let (s, n) := (s.take (if c = '-' then .itemMark else .valueMark) 1).takeBlanks isBlankChar
        some (.lineMarks, { s with least := s.indent + 1, indent := s.indent + 1 + n })
    else some (.content, s)

/-- Takes what comes next in a line outside brackets. -/
def content (s : Scan) : Option (Mode × Scan) := do
  let s ← s.blanks.allMarks
  if isLineEnd s.rest then some (.lineStart, s.lineBreak)
  else
    match s.rest with
    | [] => some (.lineStart, s)
    | c :: _ =>
      if c = '#' then some (.lineStart, s.comment.lineBreak)
      else if c = '{' then some (.inFlow, { s.take .openMapping 1 with afterKey := false, depth := 1 })
      else if c = '[' then some (.inFlow, { s.take .openList 1 with afterKey := false, depth := 1 })
      else if c = '}' then some (.content, s.take .closeMapping 1)
      else if c = ']' then some (.content, s.take .closeList 1)
      else if c = '*' ∨ c = '|' ∨ c = '>' then none
      else if c = '"' ∨ c = '\'' then some (.content, s.quoted c)
      else some (.content, s.plain)

/-- Whether a line inside brackets is indented too little. A bracket that closes all may stand one
    column to the left. -/
def leavesFlow (s : Scan) (indent : Option Nat) : Bool :=
  match indent with
  | none => false
  | some n =>
    (n < s.least && s.rest.head? != some '#' || n == 0 && (marker? s.rest).isSome) &&
      !(n + 1 == s.least && s.depth == 1 && (s.rest.head? == some ']' || s.rest.head? == some '}'))

def closeBracket (s : Scan) (kind : TokenKind) : Mode × Scan :=
  (if s.depth ≤ 1 then .content else .inFlow,
    { s.take kind 1 with afterKey := true, depth := s.depth - 1 })

/-- Takes what comes next inside brackets. -/
def inFlow (s : Scan) : Option (Mode × Scan) := do
  let (s, indent) := s.allBreaks
  if s.leavesFlow indent then none
  else
    let s ← s.allCommas.allMarks
    if isLineEnd s.rest then some (.inFlow, s)
    else
      match s.rest with
      | [] => some (.inFlow, s)
      | c :: rest =>
        if c = '#' then some (.inFlow, s.comment)
        else if c = '{' then
          some (.inFlow, { s.take .openMapping 1 with afterKey := false, depth := s.depth + 1 })
        else if c = '[' then
          some (.inFlow, { s.take .openList 1 with afterKey := false, depth := s.depth + 1 })
        else if c = '}' then some (s.closeBracket .closeMapping)
        else if c = ']' then some (s.closeBracket .closeList)
        else if c = '*' then none
        else if c = '"' ∨ c = '\'' then some (.inFlow, { s.quoted c with afterKey := true })
        else if c = ':' ∧ (s.afterKey || startsWithGap rest || rest.head? == some ',') then
          some (.inFlow, ({ s with afterKey := false }.take .valueMark 1).blanks)
        else some (.inFlow, { s.plain with afterKey := false })

def step (s : Scan) : Mode → Option (Mode × Scan)
  | .outside => s.outside
  | .lineStart => some s.lineStart
  | .lineMarks => s.lineMarks
  | .content => s.content
  | .inFlow => s.inFlow

/-- Takes steps until the end of the text. -/
def run : Nat → Mode → Scan → Option (List Token)
  | 0, _, _ => none
  | fuel + 1, mode, s =>
    if s.rest.isEmpty then some s.tokens.reverse
    else
      match s.step mode with
      | none => none
      | some (mode, s) => run fuel mode s

end Scan

/-! ## Places -/

/-- Gives tokens their places and indents, from a place with an indent on. Blanks and marks add to the
    indent while nothing else was on the line. -/
def placeTokens (offset indent : Nat) (fresh : Bool) : List Token → List Token
  | [] => []
  | t :: rest =>
    let after := offset + units t.text
    { t with offset, indent } ::
      match t.kind with
      | .contentStart => placeTokens offset indent fresh rest
      | .newline => placeTokens after 0 true rest
      | .space =>
        let grows := fresh && t.text.head? == some ' '
        placeTokens after (if grows then indent + t.text.length else indent) fresh rest
      | .itemMark | .valueMark => placeTokens after (if fresh then indent + 1 else indent) fresh rest
      | _ => placeTokens after indent false rest

/-- The tokens of a text, unless something in it is not read. -/
def tokens? (cs : List Char) : Option (List Token) :=
  -- every third step at least takes a character
  (Scan.run (4 * cs.length + 4) .outside { rest := cs }).map (placeTokens 0 0 true)

end WorkflowCompiler.Yaml
