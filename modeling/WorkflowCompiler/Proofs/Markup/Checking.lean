import WorkflowCompiler.Markup.WellFormed
import WorkflowCompiler.Proofs.Markup.Printing

/-!
Printed trees are well formed: the check passes the tag of an element with all its
content (`checkFrom_body`), and so the whole text (`checkFault?_body`).
-/
namespace WorkflowCompiler.Markup
open Text

/-! ### Attributes -/

section
variable {p : Char → Bool} {front rest : List Char}

theorem takeWhile_front (all : ∀ c ∈ front, p c = true) (stop : ∀ c ∈ rest.head?, p c = false) :
    (front ++ rest).takeWhile p = front := by
  rw [List.takeWhile_append_of_pos all]
  cases rest with
  | nil => simp
  | cons c rest => simp [stop c rfl]

theorem dropWhile_front (all : ∀ c ∈ front, p c = true) (stop : ∀ c ∈ rest.head?, p c = false) :
    (front ++ rest).dropWhile p = rest := by
  rw [List.dropWhile_append_of_pos all]
  cases rest with
  | nil => rfl
  | cons c rest => simp [stop c rfl]

end

theorem quotedValue?_cons {value : List Char} (inside : '"' ∉ value) (rest : List Char) :
    quotedValue? ('"' :: (value ++ '"' :: rest)) = some (value, rest) := by
  have all : ∀ c ∈ value, (c != '"') = true := by
    intro c member
    simpa using fun same : c = '"' => inside (same ▸ member)
  have stop : ∀ c ∈ ('"' :: rest).head?, (c != '"') = false := by
    rintro _ ⟨⟩
    decide
  rw [quotedValue?, if_pos (by simp [isQuote]), takeWhile_front all stop, dropWhile_front all stop]
  rfl

/-- An attribute in a tag, with its value as it is written. -/
def attributeText (name value : List Char) : List Char := ' ' :: name ++ '=' :: '"' :: value ++ ['"']

theorem printAttributes_cons (a : String × String) (as : List (String × String)) :
    printAttributes (a :: as) = attributeText a.1.toList (escape a.2.toList) ++ printAttributes as := by
  rw [printAttributes, List.flatMap_cons, attributeText]
  simp [printAttributes]

theorem isAttributeNameChar_simple {c : Char} (simple : isSimpleChar c = true) : isAttributeNameChar c = true := by
  have other : c ≠ '=' := fun same => simple_not_delimiter simple (same ▸ by decide)
  simp [isAttributeNameChar, isBlank_simple simple, other]

section
variable {name value : List Char} (simple : ∀ c ∈ name, isSimpleChar c = true) (filled : name ≠ []) (inside : '"' ∉ value)
include inside

theorem afterName_value (rest : List Char) : afterName ('=' :: '"' :: (value ++ '"' :: rest)) = (true, true, rest) := by
  have equals : ('=' :: '"' :: (value ++ '"' :: rest)).dropWhile isBlank = '=' :: '"' :: (value ++ '"' :: rest) :=
    List.dropWhile_cons_of_neg (by decide)
  have quote : ('"' :: (value ++ '"' :: rest)).dropWhile isBlank = '"' :: (value ++ '"' :: rest) :=
    List.dropWhile_cons_of_neg (by decide)
  unfold afterName
  rw [equals]
  simp only [quote, quotedValue?_cons inside]

include simple filled

theorem scanAttributes_cons (offset : Nat) (rest : List Char) :
    ∃ next, scanAttributes offset (attributeText name value ++ rest) =
      ⟨true, name, true, true, offset + 1⟩ :: scanAttributes next rest := by
  obtain ⟨c, more, rfl⟩ := List.exists_cons_of_ne_nil filled
  obtain ⟨first, others⟩ := List.forall_mem_cons.mp simple
  have shape : attributeText (c :: more) value ++ rest = [' '] ++ c :: (more ++ '=' :: '"' :: (value ++ '"' :: rest)) := by
    simp [attributeText]
  have visible : ∀ d ∈ (c :: (more ++ '=' :: '"' :: (value ++ '"' :: rest))).head?, isBlank d = false := by
    rintro _ ⟨⟩
    exact isBlank_simple first
  have nameChars : ∀ d ∈ more, isAttributeNameChar d = true := fun d member => isAttributeNameChar_simple (others d member)
  have stop : ∀ d ∈ ('=' :: '"' :: (value ++ '"' :: rest)).head?, isAttributeNameChar d = false := by
    rintro _ ⟨⟩
    decide
  have notEquals : c ≠ '=' := fun same => simple_not_delimiter first (same ▸ by decide)
  rw [shape, scanAttributes]
  split
  · rename_i none
    rw [dropWhile_front (List.forall_mem_singleton.mpr (by decide)) visible] at none
    cases none
  · rename_i d tail found
    rw [dropWhile_front (List.forall_mem_singleton.mpr (by decide)) visible] at found
    cases found
    rw [if_neg notEquals]
    split
    rename_i equals valued after scanned
    rw [dropWhile_front nameChars stop, afterName_value inside] at scanned
    cases scanned
    rw [takeWhile_front (List.forall_mem_singleton.mpr (by decide)) visible, takeWhile_front nameChars stop]
    exact ⟨_, rfl⟩

end

theorem SimpleName.toList_ne_nil {name : String} (simple : SimpleName name) : name.toList ≠ [] := by
  obtain ⟨c, rest, shape, _⟩ := simple.cons
  rw [shape]
  exact List.cons_ne_nil _ _

theorem firstStop?_printAttributes {as : List (String × String)} (keys : ∀ a ∈ as, SimpleName a.1)
    (distinct : (as.map Prod.fst).Nodup) {seen : List (List Char)} (fresh : ∀ a ∈ as, a.1.toList ∉ seen)
    (lookup : lookupName ∉ seen) (offset : Nat) : firstStop? seen (scanAttributes offset (printAttributes as)) = none := by
  induction as generalizing seen offset with
  | nil =>
    rw [show printAttributes [] = [] from rfl, scanAttributes]
    rfl
  | cons a rest ih =>
    obtain ⟨simple, simples⟩ := List.forall_mem_cons.mp keys
    obtain ⟨new, others⟩ := List.forall_mem_cons.mp fresh
    rw [List.map_cons, List.nodup_cons] at distinct
    have inside : '"' ∉ escape a.2.toList := not_mem_escape (by decide) (by decide) _
    have noted : a.1.toList ≠ unnotedName := fun same => simple.2.2.1 (String.toList_injective same)
    have other : a.1.toList ≠ lookupName := fun same => simple.2.2.2 (String.toList_injective same)
    obtain ⟨next, scanned⟩ := scanAttributes_cons simple.1 simple.toList_ne_nil inside offset (printAttributes rest)
    rw [printAttributes_cons, scanned, firstStop?]
    have formed : ScannedAttribute.misform? ⟨true, a.1.toList, true, true, offset + 1⟩ = none := by
      simp [ScannedAttribute.misform?, isName_of_simple simple]
    rw [formed]
    simp only [lookup, new, if_false, noted]
    refine ih simples distinct.2 ?_ ?_ next
    · intro b member same
      rcases List.mem_cons.mp same with same | earlier
      · exact distinct.1 (String.toList_injective same ▸ List.mem_map_of_mem member)
      · exact others b member earlier
    · intro member
      rcases List.mem_cons.mp member with same | earlier
      · exact other same.symm
      · exact lookup earlier

/-! ### Tags -/

/-- A slash at the end of a tag. -/
def slashIf (closes : Bool) : List Char := if closes then ['/'] else []

/-- What follows the start tag of an element that has content, with what comes after the element. -/
def afterStartTag (lineStart : List Char) (e : Element) (more : List Char) : List Char :=
  escape e.text.toList ++ (bodies (lineStart ++ "  ".toList) e.children ++
    ((if e.children.isEmpty then [] else lineStart) ++ (endTag e.name ++ more)))

/-- A printed element begins with its tag. -/
theorem body_append (lineStart : List Char) (e : Element) (more : List Char) :
    body lineStart e ++ more = '<' :: (e.name.toList ++ (printAttributes e.attributes ++
      (slashIf e.isVoid ++ '>' :: if e.isVoid then more else afterStartTag lineStart e more))) := by
  obtain ⟨name, attributes, text, children⟩ := e
  by_cases void : text = "" ∧ children.isEmpty = true
  · simp [body, slashIf, Element.isVoid, void]
  · have filled : Element.isVoid ⟨name, attributes, text, children⟩ = false := by simpa [Element.isVoid] using void
    rw [body, if_neg void, filled]
    simp [slashIf, afterStartTag]

/-- A scan for the end of a tag that follows quotes and keeps what it passes. -/
structure KeepsQuotes (scan : Option Char → List Char → Option (List Char × List Char)) : Prop where
  outside : ∀ c, c ≠ '>' → c ≠ '\t' → ∀ rest, scan none (c :: rest) =
    (scan (if isQuote c then some c else none) rest).map fun r => (c :: r.1, r.2)
  within : ∀ q c rest, scan (some q) (c :: rest) = (scan (if c = q then none else some q) rest).map fun r => (c :: r.1, r.2)

theorem keepsQuotes_untilBracket : KeepsQuotes untilBracket where
  outside c notEnd _ rest := by rw [untilBracket, if_neg notEnd]
  within q c rest := by rw [untilBracket]

namespace KeepsQuotes
variable {scan : Option Char → List Char → Option (List Char × List Char)} (keeps : KeepsQuotes scan)
include keeps

theorem simple {cs : List Char} (simple : ∀ c ∈ cs, isSimpleChar c = true) (rest : List Char) :
    scan none (cs ++ rest) = (scan none rest).map fun r => (cs ++ r.1, r.2) := by
  induction cs with
  | nil => simp
  | cons c cs ih =>
    obtain ⟨first, others⟩ := List.forall_mem_cons.mp simple
    have delimiter := simple_not_delimiter first
    have notQuote : isQuote c = false := by
      by_contra quote
      simp only [isQuote, Bool.not_eq_false, Bool.or_eq_true, beq_iff_eq] at quote
      rcases quote with rfl | rfl
      all_goals exact delimiter (by decide)
    rw [List.cons_append, keeps.outside c (fun same => delimiter (same ▸ by decide)) (fun same => delimiter (same ▸ by decide)),
      notQuote]
    simp only [Bool.false_eq_true, if_false, ih others, Option.map_map]
    rfl

theorem quoted {value : List Char} (inside : '"' ∉ value) (rest : List Char) :
    scan (some '"') (value ++ '"' :: rest) = (scan none rest).map fun r => (value ++ '"' :: r.1, r.2) := by
  induction value with
  | nil => rw [List.nil_append, keeps.within, if_pos rfl]; rfl
  | cons c value ih =>
    obtain ⟨other, inside⟩ := not_or.mp fun h => inside (List.mem_cons.mpr h)
    rw [List.cons_append, keeps.within, if_neg (Ne.symm other), ih inside, Option.map_map]
    rfl

theorem one {name value : List Char} (named : ∀ c ∈ name, isSimpleChar c = true) (inside : '"' ∉ value) (rest : List Char) :
    scan none (attributeText name value ++ rest) = (scan none rest).map fun r => (attributeText name value ++ r.1, r.2) := by
  have shape (after : List Char) : attributeText name value ++ after = ' ' :: (name ++ '=' :: '"' :: (value ++ '"' :: after)) := by
    simp [attributeText]
  have blank := keeps.outside ' ' (by decide) (by decide) (name ++ '=' :: '"' :: (value ++ '"' :: rest))
  have equals := keeps.outside '=' (by decide) (by decide) ('"' :: (value ++ '"' :: rest))
  have quote := keeps.outside '"' (by decide) (by decide) (value ++ '"' :: rest)
  rw [if_neg (by decide)] at blank equals
  rw [if_pos (by decide), keeps.quoted inside] at quote
  rw [shape, blank, keeps.simple named, equals, quote]
  simp only [Option.map_map, shape]
  rfl

theorem all {as : List (String × String)} (keys : ∀ a ∈ as, SimpleName a.1) (rest : List Char) :
    scan none (printAttributes as ++ rest) = (scan none rest).map fun r => (printAttributes as ++ r.1, r.2) := by
  induction as with
  | nil =>
    rw [show printAttributes [] = [] from rfl]
    simp
  | cons a as ih =>
    obtain ⟨simple, simples⟩ := List.forall_mem_cons.mp keys
    rw [printAttributes_cons, List.append_assoc, keeps.one simple.1 (not_mem_escape (by decide) (by decide) _),
      ih simples, Option.map_map]
    simp only [List.append_assoc]
    rfl

end KeepsQuotes

theorem getLast?_printAttributes (as : List (String × String)) : (printAttributes as).getLast? ≠ some '/' := by
  induction as using List.reverseRecOn with
  | nil =>
    rw [show printAttributes [] = [] from rfl]
    simp
  | append_singleton as a _ =>
    rw [printAttributes, List.flatMap_append, List.flatMap_singleton, ← List.append_assoc, List.getLast?_concat]
    decide

theorem trimmed_of_visible {cs : List Char} (visible : ∀ c ∈ cs, isBlank c = false) : Trimmed cs :=
  (trimmed_iff cs).mpr ⟨fun _ first => visible _ (List.mem_of_head? first), fun _ last => visible _ (List.mem_of_getLast? last)⟩

theorem tagName_open {name : String} (simple : SimpleName name) (as : List (String × String)) (closes : Bool) (more : List Char) :
    tagName (name.toList ++ (printAttributes as ++ (slashIf closes ++ '>' :: more))) =
      (name.toList, printAttributes as ++ (slashIf closes ++ '>' :: more)) := by
  have within : ∀ c ∈ name.toList, (c != '>' && !isMarkupSpace c) = true := fun c member =>
    isSimpleChar_all (p := fun c => c != '>' && !isMarkupSpace c) (by decide +kernel) (simple.1 c member)
  have bracket : ∀ c ∈ ('>' :: more).head?, (c != '>' && !isMarkupSpace c) = false := by
    rintro _ ⟨⟩
    decide
  have ends (rest : List Char) (stop : ∀ c ∈ rest.head?, (c != '>' && !isMarkupSpace c) = false) :
      tagName (name.toList ++ rest) = (name.toList, rest) := by
    have last : name.toList.getLast? ≠ some '/' := fun last => simple.not_mem (by decide) (List.mem_of_getLast? last)
    rw [tagName, takeWhile_front within stop, dropWhile_front within stop, trimmed_of_visible simple.isBlank_eq_false]
    simp only [last, if_false]
  cases as with
  | cons a as =>
    refine ends _ ?_
    rintro _ ⟨⟩
    decide
  | nil =>
    cases closes with
    | false => exact ends _ bracket
    | true =>
      have slashed : ∀ c ∈ name.toList ++ ['/'], (c != '>' && !isMarkupSpace c) = true :=
        List.forall_mem_append.mpr ⟨within, List.forall_mem_singleton.mpr (by decide)⟩
      have trimmed : Trimmed (name.toList ++ ['/']) :=
        trimmed_of_visible (List.forall_mem_append.mpr ⟨simple.isBlank_eq_false, List.forall_mem_singleton.mpr (by decide)⟩)
      show tagName (name.toList ++ ('/' :: '>' :: more)) = _
      rw [List.append_cons, tagName, takeWhile_front slashed bracket, dropWhile_front slashed bracket, trimmed]
      simp [printAttributes, slashIf]

theorem checkAttributes_printAttributes {e : Element} (printable : Printable e) :
    checkAttributes (printAttributes e.attributes) = none :=
  firstStop?_printAttributes printable.keys printable.distinct (by simp) (by simp) 0

theorem untilBracket_open {as : List (String × String)} (keys : ∀ a ∈ as, SimpleName a.1) (closes : Bool) (more : List Char) :
    untilBracket none (printAttributes as ++ (slashIf closes ++ '>' :: more)) =
      some (printAttributes as ++ slashIf closes, '>' :: more) := by
  rw [keepsQuotes_untilBracket.all keys]
  cases closes with
  | false => simp [slashIf, untilBracket]
  | true => simp [slashIf, untilBracket, isQuote]

/-- A start tag, which may close itself, passes. -/
theorem checkTag_start (text : List Char) {seen : Progress} (unclosed : seen.rootClosed = false) {e : Element}
    (printable : Printable e) (closes : Bool) (more : List Char) :
    ∃ start, checkTag text ('<' :: (e.name.toList ++ (printAttributes e.attributes ++ (slashIf closes ++ '>' :: more)))) seen =
      .ok (if closes then { seen with tagFound := true }
        else { seen with openTags := ⟨e.name, start⟩ :: seen.openTags, tagFound := true }, '>' :: more) := by
  have first (rest : List Char) : (e.name.toList ++ rest).head? ≠ some '/' := by
    rw [List.head?_append_of_ne_nil _ printable.name.toList_ne_nil]
    exact printable.name.head?_ne (by decide)
  unfold checkTag
  simp only [List.tail_cons, first, if_false, tagName_open printable.name, isName_of_simple printable.name,
    Bool.not_true, Bool.false_eq_true, untilBracket_open printable.keys, String.ofList_toList]
  cases closes with
  | true => simp [slashIf, checkAttributes_printAttributes printable]
  | false =>
    simp only [slashIf, Bool.false_eq_true, if_false, List.append_nil, getLast?_printAttributes,
      checkAttributes_printAttributes printable, unclosed]
    exact ⟨_, rfl⟩

theorem checkTag_end (text : List Char) {seen : Progress} {name : String} (simple : SimpleName name) {start : List Char}
    {outer : List OpenTag} (opened : seen.openTags = ⟨name, start⟩ :: outer) (more : List Char) :
    checkTag text (endTag name ++ more) seen =
      .ok ({ seen with openTags := outer, rootClosed := seen.rootClosed || outer.isEmpty }, '>' :: more) := by
  have shape : endTag name ++ more = '<' :: '/' :: (name.toList ++ (printAttributes [] ++ (slashIf false ++ '>' :: more))) := by
    simp [endTag, printAttributes, slashIf]
  unfold checkTag
  rw [shape]
  simp only [List.tail_cons, List.head?_cons, if_true, tagName_open simple, isName_of_simple simple, Bool.not_true,
    Bool.false_eq_true, if_false, untilBracket_open (List.forall_mem_nil _), String.ofList_toList, opened]
  simp [slashIf, printAttributes]

/-! ### Text -/

theorem skipText_reference {rest more : List Char} (reads : afterReference rest = some more) :
    skipText false ('&' :: rest) = skipText false more := by
  rw [skipText]
  split
  · rename_i none
    rw [reads] at none
    cases none
  · rename_i other found
    rw [reads] at found
    cases found
    rfl

theorem skipText_plain {c : Char} (notTag : c ≠ '<') (notReference : c ≠ '&') (rest : List Char) :
    skipText false (c :: rest) = skipText false rest := by
  rw [skipText]
  · rfl
  · exact fun _ same _ => notTag same
  · exact fun _ same _ => notTag same
  · exact notTag
  · exact notReference

theorem afterReference_escapeChar {c : Char} (special : c ∈ specialChars) :
    ∃ body, escapeChar c = '&' :: body ∧ ∀ rest, afterReference (body ++ rest) = some rest := by
  simp only [specialChars, List.mem_cons, List.not_mem_nil, or_false] at special
  rcases special with rfl | rfl | rfl | rfl | rfl
  · exact ⟨['a', 'm', 'p', ';'], by decide, fun rest => by simp [afterReference, afterReferenceName, isWordChar]⟩
  · exact ⟨['g', 't', ';'], by decide, fun rest => by simp [afterReference, afterReferenceName, isWordChar]⟩
  · exact ⟨['l', 't', ';'], by decide, fun rest => by simp [afterReference, afterReferenceName, isWordChar]⟩
  · exact ⟨['a', 'p', 'o', 's', ';'], by decide, fun rest => by simp [afterReference, afterReferenceName, isWordChar]⟩
  · exact ⟨['q', 'u', 'o', 't', ';'], by decide, fun rest => by simp [afterReference, afterReferenceName, isWordChar]⟩

theorem skipText_escape (cs rest : List Char) : skipText false (escape cs ++ rest) = skipText false rest := by
  induction cs with
  | nil => rfl
  | cons c cs ih =>
    rw [escape_cons, List.append_assoc, ← ih]
    by_cases special : c ∈ specialChars
    · obtain ⟨body, shape, reads⟩ := afterReference_escapeChar special
      rw [shape, List.cons_append, skipText_reference (reads _)]
    · rw [escapeChar_other special]
      refine skipText_plain ?_ ?_ _
      all_goals
        rintro rfl
        exact special (by decide)

theorem skipText_indent {lineStart : List Char} (indent : Indent lineStart) (rest : List Char) :
    skipText false (lineStart ++ rest) = skipText false rest := by
  induction lineStart with
  | nil => rfl
  | cons c lineStart ih =>
    obtain ⟨first, others⟩ := List.forall_mem_cons.mp indent
    rw [List.cons_append, skipText_plain, ih others]
    all_goals rcases first with rfl | rfl <;> decide

theorem skipText_tag {c : Char} (notBang : c ≠ '!') (notInstruction : c ≠ '?') (rest : List Char) :
    skipText false ('<' :: c :: rest) = .ok ('<' :: c :: rest) := by
  rw [skipText]
  · exact fun _ same => notBang (List.cons.inj same).1
  · exact fun _ same => notInstruction (List.cons.inj same).1

/-! ### Elements -/

/-- The check from behind a tag on. -/
def checkAfter (text : List Char) (seen : Progress) (after : List Char) : Except Stop Progress :=
  match skipText seen.rootClosed after with
  | .error stop => .error stop
  | .ok more => checkFrom text seen more

section
variable {text : List Char} {seen seen' : Progress}

theorem checkFrom_tag {c : Char} (notBang : c ≠ '!') (notInstruction : c ≠ '?') {rest after : List Char}
    (passes : checkTag text ('<' :: c :: rest) seen = .ok (seen', '>' :: after)) :
    checkFrom text seen ('<' :: c :: rest) = checkAfter text seen' after := by
  rw [checkFrom]
  · split
    · rename_i fails
      rw [passes] at fails
      cases fails
    · rename_i passed
      rw [passes] at passed
      cases passed
      rw [checkAfter, List.tail_cons]
      split <;> simp_all
  · exact fun _ same => notInstruction (List.cons.inj same).1
  · exact fun _ same => notBang (List.cons.inj same).1

variable (unclosed : seen.rootClosed = false)
include unclosed

theorem checkAfter_escape (cs rest : List Char) : checkAfter text seen (escape cs ++ rest) = checkAfter text seen rest := by
  rw [checkAfter, checkAfter, unclosed, skipText_escape]

theorem checkAfter_indent {lineStart : List Char} (indent : Indent lineStart) (rest : List Char) :
    checkAfter text seen (lineStart ++ rest) = checkAfter text seen rest := by
  rw [checkAfter, checkAfter, unclosed, skipText_indent indent]

theorem checkAfter_tag {c : Char} (notBang : c ≠ '!') (notInstruction : c ≠ '?') (rest : List Char) :
    checkAfter text seen ('<' :: c :: rest) = checkFrom text seen ('<' :: c :: rest) := by
  rw [checkAfter, unclosed, skipText_tag notBang notInstruction]

end

/-- Where an element that has been passed leaves the check. -/
def Progress.past (seen : Progress) (e : Element) : Progress :=
  { seen with tagFound := true, rootClosed := seen.openTags.isEmpty && !e.isVoid }

theorem checkAfter_bodies {text lineStart : List Char} (indent : Indent lineStart) {seen : Progress}
    (unclosed : seen.rootClosed = false) (found : seen.tagFound = true) (inside : seen.openTags ≠ []) {es : List Element}
    (simple : ∀ e ∈ es, SimpleName e.name)
    (each : ∀ e ∈ es, ∀ more, checkFrom text seen (body lineStart e ++ more) = checkAfter text (seen.past e) more) (more : List Char) :
    checkAfter text seen (bodies lineStart es ++ more) = checkAfter text seen more := by
  induction es with
  | nil => rfl
  | cons e rest ih =>
    obtain ⟨named, simple⟩ := List.forall_mem_cons.mp simple
    obtain ⟨first, others⟩ := List.forall_mem_cons.mp each
    have same : seen.past e = seen := by
      obtain ⟨openTags, _, _⟩ := seen
      simp_all [Progress.past]
    obtain ⟨c, tail, shape, ordinary⟩ := body_cons lineStart named
    have notBang : c ≠ '!' := fun same => ordinary (same ▸ by decide)
    have notInstruction : c ≠ '?' := fun same => ordinary (same ▸ by decide)
    rw [bodies, List.append_assoc, List.append_assoc, checkAfter_indent unclosed indent, shape, List.cons_append, List.cons_append,
      checkAfter_tag unclosed notBang notInstruction, ← List.cons_append, ← List.cons_append, ← shape, first, same, ih simple others]

theorem checkFrom_start (text : List Char) {seen : Progress} (unclosed : seen.rootClosed = false) {e : Element}
    (printable : Printable e) (closes : Bool) (more : List Char) :
    ∃ start, checkFrom text seen ('<' :: (e.name.toList ++ (printAttributes e.attributes ++ (slashIf closes ++ '>' :: more)))) =
      checkAfter text (if closes then { seen with tagFound := true }
        else { seen with openTags := ⟨e.name, start⟩ :: seen.openTags, tagFound := true }) more := by
  obtain ⟨start, passes⟩ := checkTag_start text unclosed printable closes more
  obtain ⟨c, rest, named, first, _⟩ := printable.name.cons
  have ordinary := simple_not_delimiter (isSimpleChar_of_start first)
  have notBang : c ≠ '!' := fun same => ordinary (same ▸ by decide)
  have notInstruction : c ≠ '?' := fun same => ordinary (same ▸ by decide)
  refine ⟨start, ?_⟩
  rw [named] at passes ⊢
  exact checkFrom_tag notBang notInstruction passes

theorem checkAfter_end (text : List Char) {seen : Progress} (unclosed : seen.rootClosed = false) {name : String}
    (simple : SimpleName name) {start : List Char} {outer : List OpenTag} (opened : seen.openTags = ⟨name, start⟩ :: outer)
    (more : List Char) : checkAfter text seen (endTag name ++ more) =
      checkAfter text { seen with openTags := outer, rootClosed := outer.isEmpty } more := by
  have passes := checkTag_end text simple opened more
  rw [unclosed, Bool.false_or] at passes
  exact (checkAfter_tag unclosed (by decide) (by decide) _).trans (checkFrom_tag (by decide) (by decide) passes)

/-- The check passes a printed element. -/
theorem checkFrom_body (text : List Char) {e : Element} (printable : e.Every Printable) {lineStart : List Char}
    (indent : Indent lineStart) {seen : Progress} (unclosed : seen.rootClosed = false) (more : List Char) :
    checkFrom text seen (body lineStart e ++ more) = checkAfter text (seen.past e) more := by
  induction printable generalizing lineStart seen more with
  | @intro e here below ih =>
    rw [body_append]
    cases void : e.isVoid with
    | true =>
      obtain ⟨_, passes⟩ := checkFrom_start text unclosed here true more
      have past : seen.past e = { seen with tagFound := true } := by simp [Progress.past, void, unclosed]
      rw [past]
      exact passes
    | false =>
      obtain ⟨start, passes⟩ := checkFrom_start text unclosed here false (afterStartTag lineStart e more)
      have named : ∀ c ∈ e.children, SimpleName c.name := fun c member => (below c member).here.name
      let inner : Progress := { seen with openTags := ⟨e.name, start⟩ :: seen.openTags, tagFound := true }
      have open_ : inner.rootClosed = false := unclosed
      have past : seen.past e = { inner with openTags := seen.openTags, rootClosed := seen.openTags.isEmpty } := by
        simp [Progress.past, void, inner]
      rw [if_neg Bool.false_ne_true, passes, past]
      show checkAfter text inner (afterStartTag lineStart e more) = _
      rw [afterStartTag, checkAfter_escape open_, checkAfter_bodies indent.deeper open_ rfl (List.cons_ne_nil _ _) named
        (fun c member more => ih c member indent.deeper open_ more), checkAfter_indent open_ (indent.ifNonempty _),
        checkAfter_end text open_ here.name rfl]

/-- A printed tree is well formed. -/
theorem checkFault?_body {e : Element} (printable : e.Every Printable) : checkFault? (body ['\n'] e) = none := by
  obtain ⟨c, rest, shape, _⟩ := body_cons ['\n'] printable.here.name
  have passes := checkFrom_body (body ['\n'] e) printable .line (rfl : ({} : Progress).rootClosed = false) []
  have final (text : List Char) (seen : Progress) : checkAfter text seen [] = .ok seen := by
    rw [checkAfter, skipText]
    simp only [checkFrom]
  rw [List.append_nil, final] at passes
  rw [shape] at passes ⊢
  simp [checkFault?, passes, Progress.fault?, Progress.past]

end WorkflowCompiler.Markup
