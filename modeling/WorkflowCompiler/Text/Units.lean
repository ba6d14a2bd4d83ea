/-!
# Widths in code units

Lengths, columns and paddings are counted in code units of 16 bits: a character
beyond the basic plane counts two.
-/
namespace WorkflowCompiler.Text

/-- How many 16-bit code units a character takes. -/
def unitsOfChar (c : Char) : Nat := if c.toNat < 0x10000 then 1 else 2

/-- How many 16-bit code units the characters take. -/
def units (cs : List Char) : Nat := cs.foldr (fun c n => unitsOfChar c + n) 0

/-- The width of a text in 16-bit code units. -/
def width (s : String) : Nat := units s.toList

@[simp] theorem units_cons (c : Char) (cs : List Char) : units (c :: cs) = unitsOfChar c + units cs := rfl

/-- The characters within the first `n` code units; of a pair that is cut, the half has no
    character of its own. -/
def takeUnits : Nat → List Char → List Char
  | 0, _ => []
  | _ + 1, [] => []
  | n + 1, c :: cs =>
    if unitsOfChar c ≤ n + 1 then c :: takeUnits (n + 1 - unitsOfChar c) cs else ['\uFFFD']

/-- What is left after the characters that begin within the first `n` code units. -/
def dropUnits : Nat → List Char → List Char
  | 0, cs => cs
  | _ + 1, [] => []
  | n + 1, c :: cs => dropUnits (n + 1 - unitsOfChar c) cs

/-- Spaces at the end up to the given width; a wider text stays as it is. -/
def padRight (s : String) (target : Nat) : String :=
  s ++ String.ofList (List.replicate (target - width s) ' ')

/-- The 16-bit code units of a character. -/
def unitsList (c : Char) : List Nat :=
  if c.toNat < 0x10000 then [c.toNat]
  else [0xD800 + (c.toNat - 0x10000) / 0x400, 0xDC00 + (c.toNat - 0x10000) % 0x400]

def codeUnits (s : String) : List Nat := s.toList.flatMap unitsList

end WorkflowCompiler.Text
