import WorkflowCompiler.Decimal.Notation
import WorkflowCompiler.Value

/-!
# Writing JSON

Two layouts: on one line without blanks, and one entry a line with an indent of
two spaces. An absent field of a mapping is left out; an absent item of a list
and a number that is not finite are written `null`.
-/
namespace WorkflowCompiler.Json

/-- A lower-case hexadecimal digit. -/
def hexChar (n : Nat) : Char := if n < 10 then Char.ofNat (48 + n) else Char.ofNat (87 + n)

/-- How a character stands inside quotes. -/
def quotedChar (c : Char) : List Char :=
  if c = '"' then ['\\', '"']
  else if c = '\\' then ['\\', '\\']
  else if c = '\x08' then ['\\', 'b']
  else if c = '\x0c' then ['\\', 'f']
  else if c = '\n' then ['\\', 'n']
  else if c = '\r' then ['\\', 'r']
  else if c = '\t' then ['\\', 't']
  else if c.toNat < 0x20 then ['\\', 'u', '0', '0', hexChar (c.toNat / 16), hexChar (c.toNat % 16)]
  else [c]

def quoted (s : String) : List Char := '"' :: s.toList.flatMap quotedChar ++ ['"']

/-- A number; one that is not finite is written as nothing. -/
def numberText : Decimal.Binary64 → String
  | .finite s m q => (Decimal.Binary64.finite s m q).text Decimal.plain
  | _ => "null"

mutual

def compactChars : Value → List Char
  | .absent => "null".toList
  | .null => "null".toList
  | .bool true => "true".toList
  | .bool false => "false".toList
  | .number n => (numberText n).toList
  | .text s => quoted s
  | .list [] => ['[', ']']
  | .list (v :: vs) => '[' :: compactChars v ++ compactItems vs
  | .mapping fields | .derived fields _ => '{' :: compactFields true fields

/-- The items after the first one, and the closing bracket. -/
def compactItems : List Value → List Char
  | [] => [']']
  | v :: vs => ',' :: compactChars v ++ compactItems vs

def compactFields : Bool → List (String × Value) → List Char
  | _, [] => ['}']
  | first, (_, .absent) :: rest => compactFields first rest
  | first, (k, v) :: rest =>
    (if first then [] else [',']) ++ quoted k ++ ':' :: compactChars v ++ compactFields false rest

end

def compact (v : Value) : String := String.ofList (compactChars v)

def lineStart (depth : Nat) : List Char := '\n' :: List.replicate (2 * depth) ' '

def isPresent : String × Value → Bool
  | (_, .absent) => false
  | _ => true

mutual

/-- A value over several lines, from a given depth. -/
def indentedChars (depth : Nat) : Value → List Char
  | .list (v :: vs) =>
    '[' :: lineStart (depth + 1) ++ indentedChars (depth + 1) v ++ indentedItems depth vs
  | .mapping fields | .derived fields _ =>
    if fields.any isPresent then '{' :: indentedFields depth true fields else ['{', '}']
  | .list [] => ['[', ']']
  | .absent => "null".toList
  | .null => "null".toList
  | .bool b => compactChars (.bool b)
  | .number n => compactChars (.number n)
  | .text s => quoted s

/-- The items after the first one, and the closing bracket. -/
def indentedItems (depth : Nat) : List Value → List Char
  | [] => lineStart depth ++ [']']
  | v :: vs => ',' :: lineStart (depth + 1) ++ indentedChars (depth + 1) v ++ indentedItems depth vs

def indentedFields (depth : Nat) : Bool → List (String × Value) → List Char
  | _, [] => lineStart depth ++ ['}']
  | first, (_, .absent) :: rest => indentedFields depth first rest
  | first, (k, v) :: rest =>
    (if first then [] else [',']) ++ lineStart (depth + 1) ++ quoted k ++ ':' :: ' ' ::
      indentedChars (depth + 1) v ++ indentedFields depth false rest

end

/-- A value over several lines. -/
def indented (v : Value) : String := String.ofList (indentedChars 0 v)

end WorkflowCompiler.Json
