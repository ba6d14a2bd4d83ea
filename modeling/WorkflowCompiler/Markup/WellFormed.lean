import WorkflowCompiler.Markup.Attribute
import WorkflowCompiler.Text.Cut
import WorkflowCompiler.Text.Units

/-!
# The check of a markup text

Whether a text is well formed, and otherwise where and why not. The check keeps
the tags that are open, whether any tag was seen, and whether the root element
has been closed; a tag that closes itself never counts as the root. A place in
the text is given by what is left of the text from there on.
-/
namespace WorkflowCompiler.Markup
open Text

/-- White space between the parts of a markup text. -/
def isMarkupSpace (c : Char) : Bool := c == ' ' || c == '\t' || c == '\n' || c == '\r'

/-- The place in a text from which on `rest` is left. Lines end with a line feed; columns
    count code units. -/
def positionOf (text rest : List Char) : Position :=
  let before := text.take (text.length - rest.length)
  let lastLine := (before.reverse.takeWhile (· != '\n')).reverse
  { line := before.count '\n' + 1, column := some (units lastLine + 1) }

/-- Why the check stops: a fault of form, and what is left of the text from its place on, or a
    tag whose attributes cannot be checked. -/
inductive Stop
  | misform (rest : List Char) (cause : Misform)
  | uncheckable
deriving DecidableEq, Repr

/-- Why the check stops in a tag, what is left of the text from its attributes on being given. -/
def AttributeStop.within (rest : List Char) : AttributeStop → Stop
  | .misform offset cause => .misform (rest.drop offset) (.attribute cause)
  | .uncheckable => .uncheckable

/-- A tag that has been opened, with what is left of the text from its bracket on. -/
structure OpenTag where
  name : String
  start : List Char
deriving DecidableEq, Repr

/-- What the check has seen so far; the innermost open tag is first. -/
structure Progress where
  openTags : List OpenTag := []
  tagFound : Bool := false
  rootClosed : Bool := false
deriving DecidableEq, Repr

/-! ## Parts that are passed over -/

/-- What is left after the angle brackets are balanced, `depth` of them being open. -/
def afterBalanced : Nat → List Char → List Char
  | _, [] => []
  | depth, c :: rest =>
    if c = '<' then afterBalanced (depth + 1) rest
    else if c = '>' then if depth ≤ 1 then rest else afterBalanced (depth - 1) rest
    else afterBalanced depth rest

theorem length_afterBalanced_le (depth : Nat) (cs : List Char) :
    (afterBalanced depth cs).length ≤ cs.length := by
  induction cs generalizing depth with
  | nil => simp [afterBalanced]
  | cons c rest ih =>
    simp only [afterBalanced, List.length_cons]
    split
    · exact Nat.le_succ_of_le (ih _)
    · split
      · split
        · exact Nat.le_succ _
        · exact Nat.le_succ_of_le (ih _)
      · exact Nat.le_succ_of_le (ih _)

/-- What is left after a comment, a document type or a literal section, whose text after `<!`
    is `cs`. Anything else is passed over up to the exclamation mark only. -/
def afterBang (cs : List Char) : List Char :=
  match afterPrefix? "--".toList cs with
  | some rest => if 5 ≤ units cs then afterMark "-->".toList rest else cs
  | none =>
    match afterPrefix? "DOCTYPE".toList cs with
    | some rest => if 8 ≤ units cs then afterBalanced 1 rest else cs
    | none =>
      match afterPrefix? "[CDATA[".toList cs with
      | some rest => if 9 ≤ units cs then afterMark "]]>".toList rest else cs
      | none => cs

theorem length_afterBang_le (cs : List Char) : (afterBang cs).length ≤ cs.length := by
  unfold afterBang
  split
  · rename_i rest h
    have := length_of_afterPrefix? h
    have := length_afterMark_le "-->".toList rest
    split <;> omega
  · split
    · rename_i rest h
      have := length_of_afterPrefix? h
      have := length_afterBalanced_le 1 rest
      split <;> omega
    · split
      · rename_i rest h
        have := length_of_afterPrefix? h
        have := length_afterMark_le "]]>".toList rest
        split <;> omega
      · exact Nat.le_refl _

/-- A letter, digit or underscore of ASCII. -/
def isWordChar (c : Char) : Bool := c.isAlphanum || c == '_'

/-- What is left after the name of a reference, which has at most `room` characters, and its
    semicolon. The end of the text is accepted in its place. -/
def afterReferenceName : Nat → List Char → Option (List Char)
  | _, [] => some []
  | room, c :: rest =>
    if c = ';' then some rest
    else match room with
      | 0 => none
      | room + 1 => if isWordChar c then afterReferenceName room rest else none

def afterReferenceDigits (isDigit : Char → Bool) (cs : List Char) : Option (List Char) :=
  match cs.dropWhile isDigit with
  | ';' :: rest => some rest
  | _ => none

def isHexDigit (c : Char) : Bool := c.isDigit || ('a' ≤ c && c ≤ 'f') || ('A' ≤ c && c ≤ 'F')

/-- What is left after a reference, whose text after the ampersand is given. -/
def afterReference : List Char → Option (List Char)
  | ';' :: _ => none
  | '#' :: 'x' :: rest => afterReferenceDigits isHexDigit rest
  | '#' :: rest => afterReferenceDigits Char.isDigit rest
  | cs => afterReferenceName 20 cs

theorem length_of_afterReferenceName {room : Nat} {cs rest : List Char}
    (h : afterReferenceName room cs = some rest) : rest.length ≤ cs.length := by
  induction cs generalizing room with
  | nil =>
    rw [afterReferenceName] at h
    cases h
    exact Nat.le_refl _
  | cons c cs ih =>
    unfold afterReferenceName at h
    split at h
    · cases h; simp
    · split at h
      · cases h
      · split at h
        · exact Nat.le_succ_of_le (ih h)
        · cases h

theorem length_of_afterReferenceDigits {isDigit : Char → Bool} {cs rest : List Char}
    (h : afterReferenceDigits isDigit cs = some rest) : rest.length ≤ cs.length := by
  unfold afterReferenceDigits at h
  have := length_dropWhile_le (p := isDigit) cs
  split at h
  · rename_i e
    cases h
    rw [e] at this
    exact Nat.le_of_succ_le this
  · cases h

theorem length_of_afterReference {cs rest : List Char} (h : afterReference cs = some rest) :
    rest.length ≤ cs.length := by
  unfold afterReference at h
  split at h
  · cases h
  · exact Nat.le_succ_of_le (Nat.le_succ_of_le (length_of_afterReferenceDigits h))
  · exact Nat.le_succ_of_le (length_of_afterReferenceDigits h)
  · exact length_of_afterReferenceName h

/-! ## Text -/

/-- Passes over text up to the next tag, whose bracket begins what is left. Once the root is
    closed only white space may follow. -/
def skipText (rootClosed : Bool) (cs : List Char) : Except Stop (List Char) :=
  match cs with
  | [] => .ok []
  | '<' :: '!' :: rest => skipText rootClosed (afterBang rest)
  | '<' :: '?' :: rest => skipText rootClosed (afterMark "?>".toList ('?' :: rest))
  | '<' :: rest => .ok ('<' :: rest)
  | '&' :: rest =>
    match _h : afterReference rest with
    | none => .error (.misform ('&' :: rest) .strayAmpersand)
    | some more => skipText rootClosed more
  | c :: rest =>
    if rootClosed && !isMarkupSpace c then .error (.misform (c :: rest) .textAfterRoot)
    else skipText rootClosed rest
termination_by cs.length
decreasing_by
  · have := length_afterBang_le rest
    simp only [List.length_cons]
    omega
  · have := length_afterMark_le "?>".toList ('?' :: rest)
    simp only [List.length_cons] at this ⊢
    omega
  · have := length_of_afterReference _h
    simp only [List.length_cons]
    omega
  · simp

theorem length_of_skipText {rootClosed : Bool} {cs rest : List Char}
    (h : skipText rootClosed cs = .ok rest) : rest.length ≤ cs.length := by
  fun_induction skipText rootClosed cs with
  | case1 => cases h; exact Nat.le_refl _
  | case2 more ih =>
    have := ih h
    have := length_afterBang_le more
    simp only [List.length_cons]
    omega
  | case3 more ih =>
    have := ih h
    have := length_afterMark_le "?>".toList ('?' :: more)
    simp only [List.length_cons] at this ⊢
    omega
  | case4 => cases h; exact Nat.le_refl _
  | case5 => cases h
  | case6 more after h' ih =>
    have := ih h
    have := length_of_afterReference h'
    simp only [List.length_cons]
    omega
  | case7 => cases h
  | case8 c more _ _ _ _ _ ih =>
    have := ih h
    simp only [List.length_cons]
    omega

/-! ## Tags -/

/-- The text up to the next closing bracket outside quotes, and what is left from the bracket on;
    nothing where a quote is still open at the end of the text. -/
def untilBracket : Option Char → List Char → Option (List Char × List Char)
  | none, [] => some ([], [])
  | some _, [] => none
  | some q, c :: rest =>
    (untilBracket (if c = q then none else some q) rest).map fun r => (c :: r.1, r.2)
  | none, c :: rest =>
    if c = '>' then some ([], c :: rest)
    else (untilBracket (if isQuote c then some c else none) rest).map fun r => (c :: r.1, r.2)

theorem length_of_untilBracket {quote : Option Char} {cs inside after : List Char}
    (h : untilBracket quote cs = some (inside, after)) : after.length ≤ cs.length := by
  induction cs generalizing quote inside with
  | nil =>
    cases quote with
    | none => cases h; exact Nat.le_refl _
    | some q => cases h
  | cons c cs ih =>
    cases quote with
    | none =>
      unfold untilBracket at h
      split at h
      · cases h; exact Nat.le_refl _
      · obtain ⟨⟨i, a⟩, hr, e⟩ := Option.map_eq_some_iff.1 h
        cases e
        exact Nat.le_succ_of_le (ih hr)
    | some q =>
      unfold untilBracket at h
      obtain ⟨⟨i, a⟩, hr, e⟩ := Option.map_eq_some_iff.1 h
      cases e
      exact Nat.le_succ_of_le (ih hr)

/-- The name of a tag, and what is left after it. A slash at its end is not part of the name. -/
def tagName (cs : List Char) : List Char × List Char :=
  let raw := cs.takeWhile fun c => c != '>' && !isMarkupSpace c
  let rest := cs.dropWhile fun c => c != '>' && !isMarkupSpace c
  let name := trimChars raw
  if name.getLast? = some '/' then (name.dropLast, raw.drop (raw.length - 1) ++ rest) else (name, rest)

theorem length_tagName_le (cs : List Char) : (tagName cs).2.length ≤ cs.length := by
  have whole := congrArg List.length
    (List.takeWhile_append_dropWhile (p := fun c => c != '>' && !isMarkupSpace c) (l := cs))
  rw [List.length_append] at whole
  unfold tagName
  simp only
  split
  · simp only [List.length_append, List.length_drop]
    omega
  · simp only
    omega

/-- Checks the tag whose bracket begins `start`. What is left begins with the closing bracket. -/
def checkTag (text start : List Char) (seen : Progress) : Except Stop (Progress × List Char) :=
  let closing := start.tail.head? = some '/'
  let (name, rest) := tagName (if closing then start.tail.tail else start.tail)
  let shown := String.ofList name
  if !isName name then
    .error (.misform rest (if name.all isBlank then .spaceAfterBracket else .invalidTagName shown))
  else
    match untilBracket none rest with
    | none => .error (.misform rest (.openQuote shown))
    | some (inside, after) =>
      if inside.getLast? = some '/' then
        match checkAttributes inside.dropLast with
        | some stop => .error (stop.within rest)
        | none => .ok ({ seen with tagFound := true }, after)
      else if closing then
        if after.isEmpty then .error (.misform [] (.endTagNotClosed shown))
        else if !inside.all isBlank then .error (.misform start (.endTagWithContent shown))
        else
          match seen.openTags with
          | [] => .error (.misform start (.endTagNotOpened shown))
          | tag :: outer =>
            if tag.name ≠ shown then
              .error (.misform start (.endTagMismatch tag.name (positionOf text tag.start) shown))
            else
              .ok ({ seen with openTags := outer, rootClosed := seen.rootClosed || outer.isEmpty }, after)
      else
        match checkAttributes inside with
        | some stop => .error (stop.within rest)
        | none =>
          if seen.rootClosed then .error (.misform after .secondRoot)
          else
            .ok ({ seen with openTags := ⟨shown, start⟩ :: seen.openTags, tagFound := true }, after)

theorem length_of_checkTag {text start after : List Char} {seen seen' : Progress}
    (h : checkTag text start seen = .ok (seen', after)) : after.length ≤ start.tail.length := by
  unfold checkTag at h
  simp only at h
  generalize hn : tagName (if start.tail.head? = some '/' then start.tail.tail else start.tail) = named at h
  have bound := length_tagName_le (if start.tail.head? = some '/' then start.tail.tail else start.tail)
  rw [hn] at bound
  have inner : (if start.tail.head? = some '/' then start.tail.tail else start.tail).length ≤
      start.tail.length := by
    split
    · rw [List.length_tail]; omega
    · exact Nat.le_refl _
  split at h
  · cases h
  · split at h
    · cases h
    · rename_i inside rest hu
      have shrinks := length_of_untilBracket hu
      have done : rest.length ≤ start.tail.length := by omega
      (repeat' split at h) <;> cases h <;> exact done

/-! ## The whole text -/

/-- Whether the text of an instruction begins with the name `xml`. -/
def isDeclaration (cs : List Char) : Bool :=
  match afterPrefix? "xml".toList cs with
  | some (c :: _) => c == '?' || c == ' '
  | _ => false

/-- Passes over an instruction at the top, whose text after `<?` is `cs`. One named `xml` may
    only begin the text. -/
def skipInstruction (text cs : List Char) : Except Stop (List Char) :=
  if isDeclaration cs ∧ 2 < units text - units cs then .error (.misform (cs.drop 3) .lateDeclaration)
  else .ok (afterMark "?>".toList cs)

theorem length_of_skipInstruction {text cs rest : List Char} (h : skipInstruction text cs = .ok rest) :
    rest.length ≤ cs.length := by
  unfold skipInstruction at h
  split at h
  · cases h
  · cases h; exact length_afterMark_le _ _

/-- Checks a text from a place outside of all text on. -/
def checkFrom (text : List Char) (seen : Progress) (cs : List Char) : Except Stop Progress :=
  match cs with
  | [] => .ok seen
  | '<' :: '?' :: rest =>
    match _h : skipInstruction text rest with
    | .error stop => .error stop
    | .ok more => checkFrom text seen more
  | '<' :: '!' :: rest => checkFrom text seen (afterBang rest)
  | '<' :: rest =>
    match _ht : checkTag text ('<' :: rest) seen with
    | .error stop => .error stop
    | .ok (seen, after) =>
      match _hs : skipText seen.rootClosed after.tail with
      | .error stop => .error stop
      | .ok more => checkFrom text seen more
  | c :: rest =>
    if isMarkupSpace c then checkFrom text seen rest else .error (.misform (c :: rest) (.strayChar c))
termination_by cs.length
decreasing_by
  · have := length_of_skipInstruction _h
    simp only [List.length_cons]
    omega
  · have := length_afterBang_le rest
    simp only [List.length_cons]
    omega
  · have a := length_of_checkTag _ht
    have b := length_of_skipText _hs
    rw [List.tail_cons] at a
    rw [List.length_tail] at b
    simp only [List.length_cons]
    omega
  · simp

/-- What is wrong at the end of a text: there was no tag, or a tag is still open. -/
def Progress.fault? (text : List Char) (seen : Progress) : Option Fault :=
  if !seen.tagFound then some (.malformed ⟨1, none⟩ .noTag)
  else
    match seen.openTags with
    | [] => none
    | [tag] => some (.malformed (positionOf text tag.start) (.unclosedTag tag.name))
    | tags => some (.malformed ⟨1, some 1⟩ (.unclosedTags (tags.reverse.map OpenTag.name)))

/-- Why a text does not pass the check, if it does not. A byte order mark in front does not count. -/
def checkFault? (text : List Char) : Option Fault :=
  let text := match text with
    | '\uFEFF' :: rest => rest
    | cs => cs
  match checkFrom text {} text with
  | .error (.misform rest cause) => some (.malformed (positionOf text rest) cause)
  | .error .uncheckable => some .uncheckable
  | .ok seen => seen.fault? text

end WorkflowCompiler.Markup
