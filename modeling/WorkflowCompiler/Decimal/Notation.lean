import WorkflowCompiler.Decimal.Shortest

/-!
# Number texts

How a number is written: the shortest decimal that reads back, positionally
while the point is near the digits and with an exponent otherwise.
-/
namespace WorkflowCompiler.Decimal

/-- The choices of a way to write numbers. -/
structure Notation where
  /-- Positional for a point above this … -/
  leastPoint : Int
  /-- … and up to this. -/
  greatestPoint : Int
  /-- The mark in front of an exponent. -/
  mark : String
  /-- The sign of an exponent that is not negative. -/
  plus : String
  /-- How the number that is none is written. -/
  nan : String
  /-- How the infinite number is written. -/
  infinite : String

/-- Values are written positionally from `0.000001` to below `10 ^ 21`, and
    otherwise with `e` and a signed exponent; zero has no sign. -/
def plain : Notation := ⟨-6, 21, "e", "+", "NaN", "Infinity"⟩

/-- The character of a decimal digit. -/
def digitChar (d : Nat) : Char := Char.ofNat (48 + d)

def digitText (ds : List Nat) : String := String.ofList (ds.map digitChar)

/-- A natural number in decimal. -/
def natText (n : Nat) : String := if n = 0 then "0" else digitText (decimalDigits n)

/-- A positive decimal in the given notation. -/
def Digits.text (how : Notation) (d : Digits) : String :=
  let k := d.digits.length
  if d.point ≤ how.leastPoint ∨ how.greatestPoint < d.point then
    let e := d.point - 1
    let sign := if e < 0 then "-" else how.plus
    let tail := match d.digits.drop 1 with
      | [] => ""
      | more => "." ++ digitText more
    digitText (d.digits.take 1) ++ tail ++ how.mark ++ sign ++ natText e.natAbs
  else if d.point ≤ 0 then
    "0." ++ String.ofList (List.replicate d.point.natAbs '0') ++ digitText d.digits
  else if k ≤ d.point.natAbs then
    digitText d.digits ++ String.ofList (List.replicate (d.point.natAbs - k) '0')
  else digitText (d.digits.take d.point.natAbs) ++ "." ++ digitText (d.digits.drop d.point.natAbs)

/-- A number in the given notation. -/
def Binary64.text (how : Notation) : Binary64 → String
  | .nan => how.nan
  | .infinite negative => (if negative then "-" else "") ++ how.infinite
  | .finite negative m q =>
    if m = 0 then "0" else (if negative then "-" else "") ++ (shortest m q).text how

end WorkflowCompiler.Decimal
