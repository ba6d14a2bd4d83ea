import WorkflowCompiler.Decimal.Binary64

/-!
# JSON tokens

The lexical layer of JSON, strictly as standardised: only four characters are
blank, control characters inside strings must be escaped, and numbers have
neither leading zeros nor a bare point.
-/
namespace WorkflowCompiler.Json
open Decimal

/-- A lexical unit. -/
inductive Token
  | openList | closeList | openMapping | closeMapping | comma | colon
  | null | bool (b : Bool) | number (n : Binary64) | text (s : String)
deriving DecidableEq, Repr

/-- The characters between tokens. -/
def isSpace (c : Char) : Bool := c == ' ' || c == '\t' || c == '\n' || c == '\r'

/-- The value of a hexadecimal digit. -/
def hexDigit? (c : Char) : Option Nat :=
  if '0' ≤ c ∧ c ≤ '9' then some (c.toNat - 48)
  else if 'a' ≤ c ∧ c ≤ 'f' then some (c.toNat - 87)
  else if 'A' ≤ c ∧ c ≤ 'F' then some (c.toNat - 55)
  else none

/-- What a single letter after a backslash stands for. -/
def escaped? : Char → Option Char
  | '"' => some '"'
  | '\\' => some '\\'
  | '/' => some '/'
  | 'b' => some '\x08'
  | 'f' => some '\x0c'
  | 'n' => some '\n'
  | 'r' => some '\r'
  | 't' => some '\t'
  | _ => none

/-- The value of four hexadecimal digits. -/
def hexQuad? (a b c d : Char) : Option Nat := do
  pure (4096 * (← hexDigit? a) + 256 * (← hexDigit? b) + 16 * (← hexDigit? c) + (← hexDigit? d))

/-- The codes of a string up to its closing quote, and what follows the quote.
    Escapes with four digits give code units, so a pair of them can stand for one character. -/
def stringCodes : List Char → Option (List Nat × List Char)
  | [] => none
  | '"' :: rest => some ([], rest)
  | '\\' :: 'u' :: a :: b :: c :: d :: rest =>
    match hexQuad? a b c d with
    | none => none
    | some n => (stringCodes rest).map fun r => (n :: r.1, r.2)
  | '\\' :: e :: rest =>
    match escaped? e with
    | none => none
    | some c => (stringCodes rest).map fun r => (c.toNat :: r.1, r.2)
  | c :: rest =>
    if c.toNat < 0x20 ∨ c = '\\' then none
    else (stringCodes rest).map fun r => (c.toNat :: r.1, r.2)

/-- The character that stands for a code unit without its other half. -/
def replacement : Char := '\uFFFD'

/-- The characters of a list of codes: a high and a low half together are one character. -/
def charsOfCodes : List Nat → List Char
  | [] => []
  | h :: l :: rest =>
    if 0xD800 ≤ h ∧ h < 0xDC00 ∧ 0xDC00 ≤ l ∧ l < 0xE000 then
      Char.ofNat (0x10000 + (h - 0xD800) * 0x400 + (l - 0xDC00)) :: charsOfCodes rest
    else if 0xD800 ≤ h ∧ h < 0xE000 then replacement :: charsOfCodes (l :: rest)
    else Char.ofNat h :: charsOfCodes (l :: rest)
  | [n] => if 0xD800 ≤ n ∧ n < 0xE000 then [replacement] else [Char.ofNat n]

/-- The number that decimal digits spell. -/
def digitsValue (ds : List Char) : Nat := ds.foldl (fun n d => 10 * n + (d.toNat - 48)) 0

/-- The digits at the front, at least one, and the rest. -/
def someDigits (cs : List Char) : Option (List Char × List Char) :=
  match cs.span Char.isDigit with
  | ([], _) => none
  | r => some r

/-- The integer digits of a number: a lone zero, or digits without a leading zero. -/
def integerDigits : List Char → Option (List Char × List Char)
  | '0' :: rest => some (['0'], rest)
  | cs => someDigits cs

/-- The digits after a point, if there is one. -/
def fractionDigits : List Char → Option (List Char × List Char)
  | '.' :: rest => someDigits rest
  | cs => some ([], cs)

/-- The power of ten after an exponent mark, if there is one. -/
def exponentPart : List Char → Option (Int × List Char)
  | c :: rest =>
    if c = 'e' ∨ c = 'E' then
      match rest with
      | '-' :: more => (someDigits more).map fun r => (-(digitsValue r.1 : Int), r.2)
      | '+' :: more => (someDigits more).map fun r => ((digitsValue r.1 : Int), r.2)
      | more => (someDigits more).map fun r => ((digitsValue r.1 : Int), r.2)
    else some (0, c :: rest)
  | [] => some (0, [])

/-- A number at the front, its sign read already, and the rest. -/
def unsigned (negative : Bool) (cs : List Char) : Option (Binary64 × List Char) := do
  let (whole, rest) ← integerDigits cs
  let (places, rest) ← fractionDigits rest
  let (power, rest) ← exponentPart rest
  let digits := whole ++ places
  pure (Binary64.ofDecimal negative (digitsValue digits) digits.length (power - places.length), rest)

/-- One token at the front, and the rest. -/
def token : List Char → Option (Token × List Char)
  | '[' :: rest => some (.openList, rest)
  | ']' :: rest => some (.closeList, rest)
  | '{' :: rest => some (.openMapping, rest)
  | '}' :: rest => some (.closeMapping, rest)
  | ',' :: rest => some (.comma, rest)
  | ':' :: rest => some (.colon, rest)
  | '"' :: rest => (stringCodes rest).map fun r => (.text (String.ofList (charsOfCodes r.1)), r.2)
  | 'n' :: 'u' :: 'l' :: 'l' :: rest => some (.null, rest)
  | 't' :: 'r' :: 'u' :: 'e' :: rest => some (.bool true, rest)
  | 'f' :: 'a' :: 'l' :: 's' :: 'e' :: rest => some (.bool false, rest)
  | '-' :: rest => (unsigned true rest).map fun r => (.number r.1, r.2)
  | cs => (unsigned false cs).map fun r => (.number r.1, r.2)

/-- The tokens of a text, at most `fuel` of them. -/
def tokensWithin : Nat → List Char → Option (List Token)
  | 0, _ => none
  | fuel + 1, cs =>
    match cs.dropWhile isSpace with
    | [] => some []
    | c :: rest =>
      match token (c :: rest) with
      | none => none
      | some (t, rest) => (tokensWithin fuel rest).map (t :: ·)

/-- The tokens of a text; each takes at least one character. -/
def tokens (cs : List Char) : Option (List Token) := tokensWithin (cs.length + 1) cs

end WorkflowCompiler.Json
