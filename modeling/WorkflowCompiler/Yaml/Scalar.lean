import WorkflowCompiler.Decimal.Notation
import WorkflowCompiler.Json.Token
import WorkflowCompiler.Value
import WorkflowCompiler.Yaml.Token

/-!
# YAML scalars

The texts of scalars, and what a plain one stands for by the core schema. Where a
scalar goes over several lines, a line break between two words is a space, and
each blank line between them is a line feed.
-/
namespace WorkflowCompiler.Yaml
open Decimal

def trimEnd (cs : List Char) : List Char := (cs.reverse.dropWhile isBlankChar).reverse

/-! ## Plain scalars -/

def digitsIn (base : Nat) (cs : List Char) : Option Nat :=
  if cs.isEmpty then none
  else cs.foldlM (fun n c => do
    let d ← Json.hexDigit? c
    if d < base then pure (base * n + d) else none) 0

/-- A sign at the front, and the rest. -/
def splitSign : List Char → Bool × List Char
  | '-' :: rest => (true, rest)
  | '+' :: rest => (false, rest)
  | cs => (false, cs)

/-- The digits before and after a point. A number has digits somewhere. -/
def splitPoint (cs : List Char) : Option (List Char × List Char) :=
  let whole := cs.takeWhile Char.isDigit
  match cs.dropWhile Char.isDigit with
  | [] => if whole.isEmpty then none else some (whole, [])
  | '.' :: places =>
    if places.all Char.isDigit && !(whole.isEmpty && places.isEmpty) then some (whole, places) else none
  | _ => none

/-- The power of ten of an exponent. -/
def exponent? (cs : List Char) : Option Int :=
  let (negative, digits) := splitSign cs
  if digits.isEmpty || !digits.all Char.isDigit then none
  else
    let n : Int := Json.digitsValue digits
    some (if negative then -n else n)

/-- A decimal number without its sign. -/
def decimal? (negative : Bool) (cs : List Char) : Option Binary64 := do
  let isMark := fun c => c == 'e' || c == 'E'
  let mantissa := cs.takeWhile fun c => !isMark c
  let power ← match cs.dropWhile fun c => !isMark c with
    | [] => some 0
    | _ :: digits => exponent? digits
  let (whole, places) ← splitPoint mantissa
  let digits := whole ++ places
  pure (Binary64.ofDecimal negative (Json.digitsValue digits) digits.length (power - places.length))

/-- The number that a plain scalar spells, if it does. -/
def number? (cs : List Char) : Option Binary64 :=
  match cs with
  | '0' :: 'o' :: digits => (digitsIn 8 digits).map Binary64.ofNat
  | '0' :: 'x' :: digits => (digitsIn 16 digits).map Binary64.ofNat
  | _ =>
    let (negative, rest) := splitSign cs
    if String.ofList cs ∈ [".nan", ".NaN", ".NAN"] then some .nan
    else if String.ofList rest ∈ [".inf", ".Inf", ".INF"] then some (.infinite negative)
    else decimal? negative rest

def plainValue (cs : List Char) : Value :=
  let s := String.ofList cs
  if s ∈ ["", "~", "null", "Null", "NULL"] then .null
  else if s ∈ ["true", "True", "TRUE"] then .bool true
  else if s ∈ ["false", "False", "FALSE"] then .bool false
  else
    match number? cs with
    | some n => .number n
    | none => .text s

/-- A character that no plain scalar begins with. -/
def isUnplain (c : Char) : Bool :=
  c == '\t' || c == ',' || c == '%' || c == '|' || c == '>' || c == '@' || c == '\x60'

/-! ## Lines -/

/-- The lines of a text, without the characters that end them. -/
def linesOf (cs : List Char) : List (List Char) :=
  match cs.splitOn '\n' with
  | [] => []
  | lines => lines.dropLast.map dropReturn ++ lines.getLast?.toList
where
  /-- Drops the carriage return at the end. -/
  dropReturn (line : List Char) : List Char := if line.getLast? = some '\r' then line.dropLast else line

/-- The lines after the first one, in one. Behind a blank line, `sep` is a line feed. -/
def joinLines (sep : Char) : List (List Char) → List Char
  | [] => []
  | [last] => sep :: last.dropWhile isBlankChar
  | line :: rest =>
    match (trimEnd line).dropWhile isBlankChar with
    | [] => if sep = '\n' then '\n' :: joinLines '\n' rest else joinLines '\n' rest
    | words => sep :: words ++ joinLines ' ' rest

/-- The text with its line breaks folded. A text of one line stays as it is. -/
def foldLines (cs : List Char) : List Char :=
  match linesOf cs with
  | first :: second :: rest => trimEnd first ++ joinLines ' ' (second :: rest)
  | _ => cs

/-! ## Quoted scalars -/

/-- Every two single quotes become one. -/
def halveQuotes : List Char → List Char
  | '\'' :: '\'' :: rest => '\'' :: halveQuotes rest
  | c :: rest => c :: halveQuotes rest
  | [] => []

/-- What a letter after a backslash stands for. -/
def escapeCode? : Char → Option Nat
  | '0' => some 0x00
  | 'a' => some 0x07
  | 'b' => some 0x08
  | 't' => some 0x09
  | '\t' => some 0x09
  | 'n' => some 0x0A
  | 'v' => some 0x0B
  | 'f' => some 0x0C
  | 'r' => some 0x0D
  | 'e' => some 0x1B
  | ' ' => some 0x20
  | '"' => some 0x22
  | '/' => some 0x2F
  | '\\' => some 0x5C
  | 'N' => some 0x85
  | '_' => some 0xA0
  | 'L' => some 0x2028
  | 'P' => some 0x2029
  | _ => none

/-- How many hexadecimal digits follow a letter after a backslash. -/
def escapeWidth? : Char → Option Nat
  | 'x' => some 2
  | 'u' => some 4
  | 'U' => some 8
  | _ => none

/-- The line feeds that stand for line breaks and blanks in double quotes, and what is left. -/
def takeBreaks : List Char → Nat × List Char
  | '\n' :: rest => ((takeBreaks rest).1 + 1, (takeBreaks rest).2)
  | '\r' :: '\n' :: rest => ((takeBreaks rest).1 + 1, (takeBreaks rest).2)
  | c :: rest => if isBlankChar c then takeBreaks rest else (0, c :: rest)
  | [] => (0, [])

theorem length_takeBreaks_le (cs : List Char) : (takeBreaks cs).2.length ≤ cs.length := by
  fun_induction takeBreaks cs with
  | case1 rest ih => exact Nat.le_succ_of_le ih
  | case2 rest ih => exact Nat.le_succ_of_le (Nat.le_succ_of_le ih)
  | case3 c rest _ _ _ ih => exact Nat.le_succ_of_le ih
  | case4 => exact Nat.le_refl _
  | case5 => exact Nat.le_refl _

/-- The codes of a text in double quotes, behind the opening quote. The last character closes it: it is
    read only as part of an escape. -/
def doubleQuotedCodes (cs : List Char) : Option (List Nat) :=
  match cs with
  | [] => some []
  | [_] => some []
  | '\r' :: '\n' :: rest => doubleQuotedCodes ('\n' :: rest)
  | '\n' :: rest =>
    let more := (takeBreaks rest).1
    (doubleQuotedCodes (takeBreaks rest).2).map
      ((if more = 0 then [' '.toNat] else List.replicate more '\n'.toNat) ++ ·)
  | '\\' :: '\n' :: rest => doubleQuotedCodes (rest.dropWhile isBlankChar)
  | '\\' :: '\r' :: '\n' :: rest => doubleQuotedCodes (rest.dropWhile isBlankChar)
  | '\\' :: e :: rest =>
    match escapeWidth? e with
    | some width =>
      if (rest.take width).length < width then none
      else
        match digitsIn 16 (rest.take width) with
        | some n => if n < 0x110000 then (doubleQuotedCodes (rest.drop width)).map (n :: ·) else none
        | none => none
    | none => (escapeCode? e).bind fun n => (doubleQuotedCodes rest).map (n :: ·)
  | c :: d :: rest =>
    if isBlankChar c then
      let codes := doubleQuotedCodes ((d :: rest).dropWhile isBlankChar)
      match (d :: rest).dropWhile isBlankChar with
      | '\n' :: _ => codes
      | '\r' :: '\n' :: _ => codes
      | _ => codes.map ((c :: (d :: rest).takeWhile isBlankChar).map Char.toNat ++ ·)
    else (doubleQuotedCodes (d :: rest)).map (c.toNat :: ·)
termination_by cs.length
decreasing_by
  all_goals simp only [List.length_cons]
  · omega
  · have := length_takeBreaks_le rest
    omega
  · have := (List.dropWhile_sublist (l := rest) isBlankChar).length_le
    omega
  · have := (List.dropWhile_sublist (l := rest) isBlankChar).length_le
    omega
  · simp only [List.length_drop]
    omega
  · omega
  · have := (List.dropWhile_sublist (l := d :: rest) isBlankChar).length_le
    simp only [List.length_cons] at this
    omega
  · omega

/-! ## Scalars -/

/-- Whether a text ends with the quote it began with. -/
def isClosed (quote : Char) (cs : List Char) : Bool := cs.length > 1 && cs.getLast? == some quote

def scalarText? (t : Token) : Option (List Char) :=
  match t.kind with
  | .singleQuoted =>
    if isClosed '\'' t.text then some (halveQuotes (foldLines t.text.tail.dropLast)) else none
  | .doubleQuoted =>
    if isClosed '"' t.text then (doubleQuotedCodes t.text.tail).map Json.charsOfCodes else none
  | _ =>
    match t.text with
    | c :: _ => if isUnplain c then none else some (foldLines t.text)
    | [] => some []

/-- What a scalar with a given text stands for: in quotes the text, else what the text spells. -/
def scalarValue (kind : TokenKind) (text : List Char) : Value :=
  match kind with
  | .plain => plainValue text
  | _ => .text (String.ofList text)

end WorkflowCompiler.Yaml
