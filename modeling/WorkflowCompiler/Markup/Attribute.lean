import WorkflowCompiler.Markup.Fault
import WorkflowCompiler.Markup.Name
import WorkflowCompiler.Text.Blank

/-!
# The attributes of a tag

What stands after the name in a tag is a run of attributes `name="value"`. It is
scanned twice: strictly, to check the form of every attribute, and loosely, to
collect the attributes that have a value.
-/
namespace WorkflowCompiler.Markup
open Text (isBlank)

/-- A character that can be part of the name of an attribute as far as the scan goes. -/
def isAttributeNameChar (c : Char) : Bool := !isBlank c && c != '='

def isQuote (c : Char) : Bool := c == '"' || c == '\''

/-- A value in quotes at the front, and the rest. Its closing quote is the next one of its kind. -/
def quotedValue? : List Char → Option (List Char × List Char)
  | [] => none
  | q :: cs =>
    if isQuote q ∧ q ∈ cs then
      some (cs.takeWhile (· != q), (cs.dropWhile (· != q)).tail)
    else none

theorem length_dropWhile_le {p : Char → Bool} (cs : List Char) : (cs.dropWhile p).length ≤ cs.length :=
  (List.dropWhile_sublist p).length_le

theorem length_of_quotedValue? {cs v rest : List Char} (h : quotedValue? cs = some (v, rest)) :
    rest.length < cs.length := by
  unfold quotedValue? at h
  split at h
  · cases h
  · rename_i q cs
    split at h
    · cases h
      have := length_dropWhile_le (p := (· != q)) cs
      simp only [List.length_tail, List.length_cons]
      omega
    · cases h

/-- One attribute as the strict scan finds it. -/
structure ScannedAttribute where
  /-- Whether there is a blank in front. -/
  spaced : Bool
  name : List Char
  /-- Whether there is an equals sign after the name. -/
  hasEquals : Bool
  /-- Whether there is a value in quotes after that. -/
  hasValue : Bool
  /-- How many characters are before the name. -/
  offset : Nat
deriving DecidableEq, Repr

/-- What follows a name: whether there is an equals sign, whether there is a value, and the rest. -/
def afterName (cs : List Char) : Bool × Bool × List Char :=
  let (equals, rest) := match cs.dropWhile isBlank with
    | '=' :: more => (true, more)
    | _ => (false, cs)
  match quotedValue? (rest.dropWhile isBlank) with
  | some (_, more) => (equals, true, more)
  | none => (equals, false, rest)

theorem length_afterName_le (cs : List Char) : (afterName cs).2.2.length ≤ cs.length := by
  have blanks := length_dropWhile_le (p := isBlank) cs
  unfold afterName
  split
  rename_i equals rest h
  have hrest : rest.length ≤ cs.length := by
    split at h
    · rename_i e; cases h; rw [e] at blanks; simp only [List.length_cons] at blanks; omega
    · cases h; exact Nat.le_refl _
  split
  · rename_i h'
    have := length_of_quotedValue? h'
    have := length_dropWhile_le (p := isBlank) rest
    simp only
    omega
  · exact hrest

/-- The strict scan: every attribute in the text, wherever a name begins. -/
def scanAttributes (offset : Nat) (cs : List Char) : List ScannedAttribute :=
  let blanks := cs.takeWhile isBlank
  match _h : cs.dropWhile isBlank with
  | [] => []
  | c :: rest =>
    if c = '=' then scanAttributes (offset + blanks.length + 1) rest
    else
      match _ha : afterName (rest.dropWhile isAttributeNameChar) with
      | (hasEquals, hasValue, more) =>
        { spaced := !blanks.isEmpty, name := c :: rest.takeWhile isAttributeNameChar, hasEquals, hasValue,
          offset := offset + blanks.length } ::
          scanAttributes (offset + (cs.length - more.length)) more
termination_by cs.length
decreasing_by
  all_goals
    have blanks := length_dropWhile_le (p := isBlank) cs
    rw [_h] at blanks
    simp only [List.length_cons] at blanks
  · omega
  · have a := length_afterName_le (rest.dropWhile isAttributeNameChar)
    have b := length_dropWhile_le (p := isAttributeNameChar) rest
    rw [_ha] at a
    simp only at a
    omega

/-- The first fault of an attribute on its own. -/
def ScannedAttribute.misform? (a : ScannedAttribute) : Option AttributeMisform :=
  let name := String.ofList a.name
  if !a.spaced then some (.noSpaceInFront name)
  else if a.hasEquals && !a.hasValue then some (.withoutValue name)
  else if !a.hasEquals then some (.withoutEquals name)
  else if !isName a.name then some (.invalidName name)
  else none

/-- Why the check of the attributes of a tag stops. -/
inductive AttributeStop
  | misform (offset : Nat) (cause : AttributeMisform)
  /-- The names before an attribute cannot be looked up. -/
  | uncheckable
deriving DecidableEq, Repr

/-- The name after which the names of a tag cannot be looked up any more. -/
def lookupName : List Char := "hasOwnProperty".toList

/-- The name that is never noted as seen. -/
def unnotedName : List Char := "__proto__".toList

/-- Why the check of a list of attributes stops, given the names before them. -/
def firstStop? (seen : List (List Char)) : List ScannedAttribute → Option AttributeStop
  | [] => none
  | a :: rest =>
    match a.misform? with
    | some cause => some (.misform a.offset cause)
    | none =>
      if lookupName ∈ seen then some .uncheckable
      else if a.name ∈ seen then some (.misform a.offset (.repeated (String.ofList a.name)))
      else firstStop? (if a.name = unnotedName then seen else a.name :: seen) rest

def checkAttributes (cs : List Char) : Option AttributeStop := firstStop? [] (scanAttributes 0 cs)

/-- A value at the front, behind an equals sign, and the rest. -/
def assignedValue? : List Char → Option (List Char × List Char)
  | '=' :: cs => quotedValue? (cs.dropWhile isBlank)
  | _ => none

theorem length_of_assignedValue? {cs v rest : List Char} (h : assignedValue? cs = some (v, rest)) :
    rest.length < cs.length := by
  unfold assignedValue? at h
  split at h
  · rename_i cs
    have a := length_of_quotedValue? h
    have b := length_dropWhile_le (p := isBlank) cs
    simp only [List.length_cons]
    omega
  · cases h

/-- The loose scan: the names in the text, each with the value after it, if there is one. -/
def collectAttributes (cs : List Char) : List (List Char × Option (List Char)) :=
  match _h : cs.dropWhile (fun c => !isAttributeNameChar c) with
  | [] => []
  | c :: rest =>
    let name := c :: rest.takeWhile isAttributeNameChar
    let tail := (rest.dropWhile isAttributeNameChar).dropWhile isBlank
    match _hv : assignedValue? tail with
    | some (value, more) => (name, some value) :: collectAttributes more
    | none => (name, none) :: collectAttributes tail
termination_by cs.length
decreasing_by
  all_goals
    have front := length_dropWhile_le (p := fun c => !isAttributeNameChar c) cs
    rw [_h] at front
    simp only [List.length_cons] at front
    have inner := length_dropWhile_le (p := isBlank) (rest.dropWhile isAttributeNameChar)
    have outer := length_dropWhile_le (p := isAttributeNameChar) rest
  · have a : more.length < tail.length := length_of_assignedValue? _hv
    have b : tail.length ≤ rest.length := Nat.le_trans inner outer
    omega
  · omega

end WorkflowCompiler.Markup
