/-!
# Names

The names of tags, attributes and entities. A name begins with a letter, an
underscore or a colon and goes on with these, digits, dots, hyphens and a few
more characters, all from the basic plane.
-/
namespace WorkflowCompiler.Markup

/-- The ranges of the characters that can begin a name. -/
def nameStartRanges : List (Nat × Nat) :=
  [(0x3A, 0x3A), (0x41, 0x5A), (0x61, 0x7A), (0x5F, 0x5F), (0xC0, 0xD6), (0xD8, 0xF6), (0xF8, 0x2FF),
    (0x370, 0x37D), (0x37F, 0x1FFF), (0x200C, 0x200D), (0x2070, 0x218F), (0x2C00, 0x2FEF),
    (0x3001, 0xD7FF), (0xF900, 0xFDCF), (0xFDF0, 0xFFFD)]

def nameOnlyRanges : List (Nat × Nat) :=
  [(0x2D, 0x2D), (0x2E, 0x2E), (0x30, 0x39), (0xB7, 0xB7), (0x300, 0x36F), (0x203F, 0x2040)]

/-- Whether a character lies in one of the ranges. -/
def inRanges (ranges : List (Nat × Nat)) (c : Char) : Bool :=
  ranges.any fun r => r.1 ≤ c.toNat && c.toNat ≤ r.2

/-- Whether a character can begin a name. -/
def isNameStart (c : Char) : Bool := inRanges nameStartRanges c

/-- Whether a character can continue a name. -/
def isNameChar (c : Char) : Bool := isNameStart c || inRanges nameOnlyRanges c

def isName : List Char → Bool
  | [] => false
  | c :: rest => isNameStart c && rest.all isNameChar

end WorkflowCompiler.Markup
