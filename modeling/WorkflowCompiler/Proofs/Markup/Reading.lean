import WorkflowCompiler.Proofs.Fields
import WorkflowCompiler.Proofs.Markup.Checking

/-!
Reading what was printed, step by step: the attributes of a tag (`readAttributes_printed`),
a start tag (`markup_start`), an end tag (`markup_end`), and the text that is pending when
a tag comes. A step is taken exactly if there is room for the replacements it makes.
-/
namespace WorkflowCompiler.Markup
open Text

/-! ### Attributes -/

/-- The name whose attributes declare namespaces. -/
def namespaceKey : String := "xmlns"

/-- The attributes that are read, as they are read. -/
def readableAttributes (as : List (String × String)) : List (String × String) :=
  (as.filter fun a => a.1 ≠ namespaceKey).map fun a => (a.1, trim a.2)

def attributeReferences (as : List (String × String)) : Nat :=
  ((as.filter fun a => a.1 ≠ namespaceKey).map fun a => references a.2.toList).sum

theorem assignedValue?_cons {value : List Char} (inside : '"' ∉ value) (rest : List Char) :
    assignedValue? ('=' :: '"' :: (value ++ '"' :: rest)) = some (value, rest) := by
  rw [assignedValue?, List.dropWhile_cons_of_neg (by decide), quotedValue?_cons inside]

section
variable {name value : List Char} (simple : ∀ c ∈ name, isSimpleChar c = true) (filled : name ≠ []) (inside : '"' ∉ value)
include simple filled inside

theorem collectAttributes_cons {blanks : List Char} (blank : ∀ c ∈ blanks, isBlank c = true) (rest : List Char) :
    collectAttributes (blanks ++ (name ++ '=' :: '"' :: (value ++ '"' :: rest))) = (name, some value) :: collectAttributes rest := by
  obtain ⟨c, more, rfl⟩ := List.exists_cons_of_ne_nil filled
  obtain ⟨first, others⟩ := List.forall_mem_cons.mp simple
  have passed : ∀ d ∈ blanks, (!isAttributeNameChar d) = true := fun d member => by simp [isAttributeNameChar, blank d member]
  have shown : ∀ d ∈ (c :: (more ++ '=' :: '"' :: (value ++ '"' :: rest))).head?, (!isAttributeNameChar d) = false := by
    rintro _ ⟨⟩
    simp [isAttributeNameChar_simple first]
  have nameChars : ∀ d ∈ more, isAttributeNameChar d = true := fun d member => isAttributeNameChar_simple (others d member)
  have stop : ∀ d ∈ ('=' :: '"' :: (value ++ '"' :: rest)).head?, isAttributeNameChar d = false := by
    rintro _ ⟨⟩
    decide
  have equals : ('=' :: '"' :: (value ++ '"' :: rest)).dropWhile isBlank = '=' :: '"' :: (value ++ '"' :: rest) :=
    List.dropWhile_cons_of_neg (by decide)
  rw [List.cons_append, collectAttributes]
  split
  · rename_i none
    rw [dropWhile_front passed shown] at none
    cases none
  · rename_i d tail found
    rw [dropWhile_front passed shown] at found
    cases found
    dsimp only
    split
    · rename_i v after assigned
      rw [dropWhile_front nameChars stop, equals, assignedValue?_cons inside] at assigned
      cases assigned
      rw [takeWhile_front nameChars stop]
    · rename_i none
      rw [dropWhile_front nameChars stop, equals, assignedValue?_cons inside] at none
      cases none

end

theorem collectAttributes_printAttributes {as : List (String × String)} (keys : ∀ a ∈ as, SimpleName a.1) :
    collectAttributes (printAttributes as) = as.map fun a => (a.1.toList, some (escape a.2.toList)) := by
  induction as with
  | nil =>
    rw [show printAttributes [] = [] from rfl, collectAttributes]
    rfl
  | cons a as ih =>
    obtain ⟨simple, simples⟩ := List.forall_mem_cons.mp keys
    have shape : printAttributes (a :: as) =
        [' '] ++ (a.1.toList ++ '=' :: '"' :: (escape a.2.toList ++ '"' :: printAttributes as)) := by
      rw [printAttributes_cons, attributeText]
      simp
    rw [shape, collectAttributes_cons simple.1 simple.toList_ne_nil (not_mem_escape (by decide) (by decide) _)
      (List.forall_mem_singleton.mpr (by decide : isBlank ' ' = true)), ih simples]
    rfl

theorem collectAttributes_tail {as : List (String × String)} (keys : ∀ a ∈ as, SimpleName a.1) :
    collectAttributes (printAttributes as).tail = as.map fun a => (a.1.toList, some (escape a.2.toList)) := by
  cases as with
  | nil =>
    rw [show printAttributes [] = [] from rfl, List.tail_nil, collectAttributes]
    rfl
  | cons a as =>
    obtain ⟨simple, simples⟩ := List.forall_mem_cons.mp keys
    have shape : (printAttributes (a :: as)).tail =
        [] ++ (a.1.toList ++ '=' :: '"' :: (escape a.2.toList ++ '"' :: printAttributes as)) := by
      rw [printAttributes_cons, attributeText]
      simp
    rw [shape, collectAttributes_cons simple.1 simple.toList_ne_nil (not_mem_escape (by decide) (by decide) _)
      (List.forall_mem_nil _), collectAttributes_printAttributes simples]
    rfl

theorem localAttributeName_simple {name : String} (simple : SimpleName name) :
    localAttributeName name.toList = if name = namespaceKey then [] else name.toList := by
  have noColon : ':' ∉ name.toList := simple.not_mem (by decide)
  have same : name.toList = "xmlns".toList ↔ name = namespaceKey :=
    ⟨fun same => String.toList_injective same, fun same => congrArg String.toList same⟩
  rw [localAttributeName, List.splitOn_eq_singleton noColon]
  simp only [same]

theorem arrayIndex?_simple {name : String} (simple : SimpleName name) : arrayIndex? name = none := by
  obtain ⟨c, rest, shape, start, _⟩ := simple.cons
  have notDigit : c.isDigit = false := by
    have := isSimpleChar_all (p := fun c => !isSimpleStart c || !c.isDigit) (by decide +kernel) (isSimpleChar_of_start start)
    simpa [start] using this
  unfold arrayIndex?
  rw [shape]
  split
  · rename_i none
    cases none
  · rename_i zero
    rw [(List.cons.inj zero).1] at notDigit
    cases notDigit
  · rename_i d more _ same
    cases same
    simp [notDigit]

theorem attributeKey_of_kept {key : String} (kept : key ∉ reservedAttributes ∧ key ∉ guardedAttributes) :
    attributeKey key = .ok key := by
  rw [attributeKey, if_neg kept.1, if_neg kept.2]

theorem count_dropWhile {c : Char} {p : Char → Bool} (kept : p c = false) (cs : List Char) :
    (cs.dropWhile p).count c = cs.count c := by
  have dropped : c ∉ cs.takeWhile p := fun member => by simpa [kept] using List.mem_takeWhile_imp member
  conv_rhs => rw [← List.takeWhile_append_dropWhile (p := p) (l := cs)]
  rw [List.count_append, List.count_eq_zero.mpr dropped, Nat.zero_add]

theorem count_trimChars {c : Char} (visible : isBlank c = false) (cs : List Char) : (trimChars cs).count c = cs.count c := by
  rw [trimChars, List.count_reverse, count_dropWhile visible, List.count_reverse, count_dropWhile visible]

theorem references_trimChars (cs : List Char) : references (trimChars cs) = references cs := by
  simp only [references, characterReferences, List.map_cons, List.map_nil, count_trimChars (by decide : isBlank '\'' = false),
    count_trimChars (by decide : isBlank '>' = false), count_trimChars (by decide : isBlank '<' = false),
    count_trimChars (by decide : isBlank '"' = false)]

theorem trimChars_escape_toList (s : String) : trimChars (escape s.toList) = escape (trim s).toList := by
  rw [trimChars_escape, trim, String.toList_ofList]

theorem readAttributes_printed {as : List (String × String)} (keys : ∀ a ∈ as, SimpleName a.1)
    (kept : ∀ a ∈ as, a.1 ∉ reservedAttributes ∧ a.1 ∉ guardedAttributes) {before : List (String × String)}
    (distinct : ((before ++ as).map Prod.fst).Nodup) {x : Expansions} (undeclared : x.declared = [])
    (result : List (String × String) × Expansions) :
    readAttributes x before (as.map fun a => (a.1.toList, some (escape a.2.toList))) = .ok result ↔
      x.Within (attributeReferences as) ∧ result = (before ++ readableAttributes as, x.spend (attributeReferences as)) := by
  induction as generalizing before x with
  | nil => simp [readAttributes, attributeReferences, readableAttributes, Expansions.Within, Expansions.spend_zero, eq_comm]
  | cons a as ih =>
    obtain ⟨simple, simples⟩ := List.forall_mem_cons.mp keys
    obtain ⟨keptFirst, keptOthers⟩ := List.forall_mem_cons.mp kept
    rw [List.map_cons, readAttributes, localAttributeName_simple simple]
    by_cases declares : a.1 = namespaceKey
    · have shorter : ((before ++ as).map Prod.fst).Nodup := by
        refine distinct.sublist (List.Sublist.map _ ?_)
        exact List.Sublist.append_left (List.sublist_cons_self a as) before
      simp only [declares, if_true]
      rw [ih simples keptOthers shorter undeclared]
      simp [attributeReferences, readableAttributes, declares]
    · have fresh : a.1 ∉ before.map Prod.fst := by
        intro member
        rw [List.map_append, List.nodup_append] at distinct
        exact distinct.2.2 _ member a.1 (by simp) rfl
      have further : (((before ++ [(a.1, trim a.2)]) ++ as).map Prod.fst).Nodup := by
        simpa using distinct
      have fields : putField a.1 (trim a.2) before = before ++ [(a.1, trim a.2)] :=
        putField_fresh fresh (arrayIndex?_simple simple) _
      have count : attributeReferences (a :: as) = references (trim a.2).toList + attributeReferences as := by
        simp [attributeReferences, declares, trim, references_trimChars]
      have readable : readableAttributes (a :: as) = (a.1, trim a.2) :: readableAttributes as := by
        simp [readableAttributes, declares]
      have still : (x.spend (references (trim a.2).toList)).declared = [] := by simpa using undeclared
      obtain ⟨c, more, named, _⟩ := simple.cons
      have short : String.ofList (c :: more) = a.1 := by rw [← named, String.ofList_toList]
      simp only [declares, if_false, named, short, attributeKey_of_kept keptFirst, ok_bind, trimChars_escape_toList]
      rw [bind_eq_ok, count, readable, Expansions.within_add, ← Expansions.spend_spend]
      constructor
      · rintro ⟨_, expanded, rest⟩
        obtain ⟨within, rfl⟩ := (expand_escape undeclared _ _).mp expanded
        simp only [String.ofList_toList, fields] at rest
        obtain ⟨later, rfl⟩ := (ih simples keptOthers further still).mp rest
        exact ⟨⟨within, later⟩, by simp⟩
      · rintro ⟨⟨within, later⟩, rfl⟩
        refine ⟨_, (expand_escape undeclared _ _).mpr ⟨within, rfl⟩, ?_⟩
        simp only [String.ofList_toList, fields]
        refine (ih simples keptOthers further still).mpr ⟨later, ?_⟩
        rw [List.append_assoc, List.singleton_append]

/-! ### Tags -/

theorem afterPrefix?_single (m : Char) (c : Char) (rest : List Char) :
    afterPrefix? [m] (c :: rest) = if m = c then some rest else none := rfl

theorem keepsQuotes_tagText : KeepsQuotes (tagText ['>']) where
  outside c notEnd notTab rest := by
    rw [tagText, afterPrefix?_single, if_neg (Ne.symm notEnd), if_neg notTab]
  within q c rest := by rw [tagText]

theorem tagText_open {name : String} (simple : SimpleName name) {as : List (String × String)} (keys : ∀ a ∈ as, SimpleName a.1)
    (closes : Bool) (more : List Char) :
    tagText ['>'] none (name.toList ++ (printAttributes as ++ (slashIf closes ++ '>' :: more))) =
      some (name.toList ++ (printAttributes as ++ slashIf closes), more) := by
  have final : tagText ['>'] none ('>' :: more) = some ([], more) := by
    rw [tagText, afterPrefix?_single, if_pos rfl]
  rw [keepsQuotes_tagText.simple simple.1, keepsQuotes_tagText.all keys]
  cases closes with
  | false => simp [slashIf, final]
  | true =>
    have slash := keepsQuotes_tagText.outside '/' (by decide) (by decide) ('>' :: more)
    rw [if_neg (by decide), final] at slash
    simp [slashIf, slash]

theorem startTag_bare {cs : List Char} (visible : ∀ c ∈ cs, (!isBlank c) = true) (noColon : ':' ∉ cs) :
    startTag cs = if cs.getLast? = some '/' then ⟨cs.dropLast, [], true⟩ else ⟨cs, [], false⟩ := by
  have whole : wholeName cs = cs := by
    rw [wholeName, List.takeWhile_eq_self_iff.mpr visible, localName, if_neg noColon]
  rw [startTag, List.dropWhile_eq_nil_iff.mpr visible, whole]

theorem startTag_open_nil {name : String} (simple : SimpleName name) (closes : Bool) :
    startTag (name.toList ++ slashIf closes) = ⟨name.toList, [], closes⟩ := by
  have slash : ∀ c ∈ slashIf closes, (!isBlank c) = true := by
    cases closes with
    | false => exact List.forall_mem_nil _
    | true => exact List.forall_mem_singleton.mpr (by decide)
  have visible : ∀ c ∈ name.toList ++ slashIf closes, (!isBlank c) = true :=
    List.forall_mem_append.mpr ⟨fun c member => by simp [simple.isBlank_eq_false c member], slash⟩
  have noColon : ':' ∉ name.toList := simple.not_mem (by decide)
  rw [startTag_bare visible (by cases closes <;> simp [slashIf, noColon])]
  cases closes with
  | false =>
    have noSlash : name.toList.getLast? ≠ some '/' := fun last => simple.not_mem (by decide) (List.mem_of_getLast? last)
    simp [slashIf, noSlash]
  | true => simp [slashIf]

/-- Attributes are printed after a blank. -/
theorem printAttributes_eq_cons {a : String × String} (simple : SimpleName a.1) (as : List (String × String)) :
    ∃ text, printAttributes (a :: as) = ' ' :: text ∧ '=' ∈ text ∧ text.getLast? ≠ some '/' ∧ ∀ d ∈ text.head?, isBlank d = false := by
  obtain ⟨c, rest, named, start, _⟩ := simple.cons
  obtain ⟨text, printed, equals, shown⟩ : ∃ text, printAttributes (a :: as) = ' ' :: text ∧ '=' ∈ text ∧
      ∀ d ∈ text.head?, isBlank d = false := by
    refine ⟨_, by rw [printAttributes_cons, attributeText]; rfl, by simp, ?_⟩
    rw [named]
    rintro _ ⟨⟩
    exact isBlank_simple (isSimpleChar_of_start start)
  refine ⟨text, printed, equals, ?_, shown⟩
  have whole := getLast?_printAttributes (a :: as)
  rw [printed] at whole
  cases text with
  | nil => cases equals
  | cons d text => simpa using whole

theorem startTag_open {name : String} (simple : SimpleName name) {as : List (String × String)} (keys : ∀ a ∈ as, SimpleName a.1)
    (closes : Bool) :
    startTag (name.toList ++ (printAttributes as ++ slashIf closes)) = ⟨name.toList, (printAttributes as).tail, closes⟩ := by
  cases as with
  | nil => exact startTag_open_nil simple closes
  | cons a as =>
    obtain ⟨text, printed, equals, last, shown⟩ := printAttributes_eq_cons (keys a List.mem_cons_self) as
    have visible : ∀ c ∈ name.toList, (!isBlank c) = true := fun c member => by simp [simple.isBlank_eq_false c member]
    have blank : ∀ d ∈ (' ' :: (text ++ slashIf closes)).head?, (!isBlank d) = false := by
      rintro _ ⟨⟩
      decide
    have whole : wholeName (name.toList ++ ' ' :: (text ++ slashIf closes)) = name.toList := by
      rw [wholeName, takeWhile_front visible blank, localName, if_neg (simple.not_mem (by decide))]
    have attributes : (text ++ slashIf closes).dropWhile isBlank = text ++ slashIf closes := by
      cases text with
      | nil => cases equals
      | cons d text => exact List.dropWhile_cons_of_neg (by simp [shown d rfl])
    -- Attributes that are the name again would count as none.
    have kept : text ≠ name.toList := by
      rintro rfl
      exact simple.not_mem (by decide) equals
    have noSlash : name.toList.getLast? ≠ some '/' := fun last => simple.not_mem (by decide) (List.mem_of_getLast? last)
    rw [printed, List.cons_append, startTag, whole, dropWhile_front visible blank]
    simp only [attributes, List.tail_cons]
    cases closes with
    | false => simp [slashIf, last, kept]
    | true => simp [slashIf, noSlash, kept]

theorem wholeName_open_ne {name : String} (simple : SimpleName name) (rest : List Char) (noColon : ':' ∉ rest.takeWhile fun c => !isBlank c) :
    wholeName (name.toList ++ rest) ≠ textName.toList := by
  obtain ⟨c, more, named, start, _⟩ := simple.cons
  have visible : ∀ c ∈ name.toList, (!isBlank c) = true := fun c member => by simp [simple.isBlank_eq_false c member]
  have noColons : ':' ∉ name.toList ++ rest.takeWhile fun c => !isBlank c := by
    intro member
    rcases List.mem_append.mp member with member | member
    · exact simple.not_mem (by decide) member
    · exact noColon member
  rw [wholeName, List.takeWhile_append_of_pos visible, localName, if_neg noColons, named]
  intro same
  have first : c = '#' := (List.cons.inj (same.trans (by decide : textName.toList = ['#', 't', 'e', 'x', 't']))).1
  exact simple_not_delimiter (isSimpleChar_of_start start) (first ▸ by decide)

theorem takeWhile_open (as : List (String × String)) (closes : Bool) :
    ':' ∉ (printAttributes as ++ slashIf closes).takeWhile fun c => !isBlank c := by
  cases as with
  | nil => cases closes <;> decide
  | cons a as =>
    rw [printAttributes_cons, attributeText]
    simp [show isBlank ' ' = true by decide]

/-! ### Steps of the reader -/

/-- From a state and a text the reader gets to another state and what is left of the text if there is
    room for so many replacements, and it stops with a fault if there is not. -/
def Reads (n : Nat) (r : Reading) (cs : List Char) (r' : Reading) (rest : List Char) : Prop :=
  ∀ fuel > cs.length, ∃ fuel' > rest.length, ∀ final,
    Reading.readFrom fuel r cs = .ok final ↔ r.expansions.Within n ∧ Reading.readFrom fuel' r' rest = .ok final

/-- The state after more text without tags. -/
def Reading.pend (r : Reading) (cs : List Char) : Reading := { r with pending := cs.reverse ++ r.pending }

namespace Reads
variable {m n : Nat} {r s t : Reading} {a b c : List Char}

theorem trans (first : Reads m r a s b) (spent : s.expansions = r.expansions.spend m) (second : Reads n s b t c) :
    Reads (m + n) r a t c := by
  intro fuel enough
  obtain ⟨fuel, enough, reads⟩ := first fuel enough
  obtain ⟨fuel', enough', reads'⟩ := second fuel enough
  refine ⟨fuel', enough', fun final => ?_⟩
  rw [reads, reads', spent, Expansions.within_add, and_assoc]

theorem plain {cs : List Char} (plain : '<' ∉ cs) (rest : List Char) :
    Reads 0 r (cs ++ rest) (r.pend cs) rest := by
  intro fuel enough
  induction cs generalizing r fuel with
  | nil => exact ⟨fuel, enough, fun final => by simp [Expansions.Within, Reading.pend]⟩
  | cons c cs ih =>
    obtain ⟨other, plain⟩ := not_or.mp fun h => plain (List.mem_cons.mpr h)
    cases fuel with
    | zero => cases enough
    | succ fuel =>
      obtain ⟨fuel', enough', reads⟩ := ih plain (r := { r with pending := c :: r.pending }) fuel (Nat.lt_of_succ_lt_succ enough)
      refine ⟨fuel', enough', fun final => ?_⟩
      rw [List.cons_append, Reading.readFrom, if_neg (Ne.symm other), reads]
      simp [Reading.pend]

theorem after {cs : List Char} (plain : '<' ∉ cs) (second : Reads n (r.pend cs) a s b) : Reads n r (cs ++ a) s b := by
  have reads := trans (Reads.plain plain a) (Expansions.spend_zero r.expansions).symm second
  rwa [Nat.zero_add] at reads

theorem markup (shorter : a.length ≤ b.length) (reads : ∀ x, r.markup b = .ok x ↔ r.expansions.Within n ∧ x = (s, a)) :
    Reads n r ('<' :: b) s a := by
  intro fuel enough
  cases fuel with
  | zero => cases enough
  | succ fuel =>
    refine ⟨fuel, Nat.lt_of_le_of_lt shorter (Nat.lt_of_succ_lt_succ enough), fun final => ?_⟩
    rw [Reading.readFrom, if_pos rfl]
    cases result : r.markup b with
    | error fault =>
      have refused : ¬ r.expansions.Within n := by
        intro within
        have := (reads _).mpr ⟨within, rfl⟩
        rw [result] at this
        cases this
      simp [refused]
    | ok x =>
      obtain ⟨within, rfl⟩ := (reads x).mp result
      simp [within]

end Reads

/-! ### Pending text -/

theorem breakOn_single {m : Char} {cs : List Char} (noMark : m ∉ cs) (rest : List Char) :
    breakOn [m] (cs ++ m :: rest) = some (cs, rest) := by
  induction cs with
  | nil => rw [List.nil_append, breakOn, afterPrefix?_single, if_pos rfl]
  | cons c cs ih =>
    obtain ⟨other, noMark⟩ := not_or.mp fun h => noMark (List.mem_cons.mpr h)
    rw [List.cons_append, breakOn, afterPrefix?_single, if_neg other, ih noMark]
    rfl

namespace Reading

/-- The state after the pending text, which stands for the given one, has been added. -/
def flushed (r : Reading) (text : List Char) : Reading :=
  { r.addText text with pending := [], expansions := r.expansions.spend (references text) }

/-- A state in a document without entities whose pending text stands for the given one. -/
structure Holds (r : Reading) (text : List Char) : Prop where
  running : r.ended = false
  undeclared : r.expansions.declared = []
  pending : trimChars r.pending.reverse = escape text

theorem flushed_nil {r : Reading} (empty : r.pending = []) : r.flushed [] = r := by
  obtain ⟨open_, roots, ended, pending, x⟩ := r
  cases empty
  cases open_ with
  | nil => rfl
  | cons o outer => simp [flushed, addText, references, characterReferences, Expansions.spend_zero]

theorem Holds.eq_nil {r : Reading} {text : List Char} (holds : r.Holds text) (empty : r.pending = []) : text = [] := by
  have nothing := holds.pending
  rw [empty] at nothing
  exact escape_eq_nil.mp nothing.symm

theorem flush_eq_ok {r : Reading} {text : List Char} (holds : r.Holds text) (s : Reading) :
    r.flush = .ok s ↔ r.expansions.Within (references text) ∧ s = r.flushed text := by
  rw [flush, holds.running]
  by_cases empty : r.pending = []
  · rw [if_pos (by simp [empty]), holds.eq_nil empty, flushed_nil empty]
    simp [Expansions.Within, references, characterReferences, eq_comm]
  · rw [if_neg (by simpa using empty), if_neg (by decide), bind_eq_ok, holds.pending]
    constructor
    · rintro ⟨_, expanded, same⟩
      obtain ⟨within, rfl⟩ := (expand_escape holds.undeclared _ _).mp expanded
      cases same
      exact ⟨within, rfl⟩
    · rintro ⟨within, rfl⟩
      exact ⟨_, (expand_escape holds.undeclared _ _).mpr ⟨within, rfl⟩, rfl⟩

theorem markup_end {r : Reading} {text : List Char} (holds : r.Holds text) {name : String} (simple : SimpleName name)
    (rest : List Char) (x : Reading × List Char) :
    r.markup ('/' :: (name.toList ++ '>' :: rest)) = .ok x ↔
      r.expansions.Within (references text) ∧ x = ((r.flushed text).closeInnermost, rest) := by
  have noEnd : '>' ∉ name.toList := simple.not_mem (by decide)
  rw [markup, show ">".toList = ['>'] by decide, breakOn_single noEnd]
  simp only [holds.running, Bool.false_eq_true, if_false]
  rw [bind_eq_ok]
  constructor
  · rintro ⟨s, flushes, same⟩
    obtain ⟨within, rfl⟩ := (flush_eq_ok holds s).mp flushes
    cases same
    exact ⟨within, rfl⟩
  · rintro ⟨within, rfl⟩
    exact ⟨_, (flush_eq_ok holds _).mpr ⟨within, rfl⟩, rfl⟩

/-- A state in which a start tag can come. At the top no text is pending. -/
structure Ready (r : Reading) (text : List Char) : Prop extends r.Holds text where
  top : r.dropsText = true → r.open_ = [] ∧ r.pending = []

theorem Ready.flushes {r : Reading} {text : List Char} (ready : r.Ready text) (next : Reading → Except ReadFault Reading)
    (s : Reading) :
    (if r.dropsText then Except.ok { r with pending := [] } >>= next else r.flush >>= next) = .ok s ↔
      r.expansions.Within (references text) ∧ next (r.flushed text) = .ok s := by
  split
  · rename_i drops
    obtain ⟨_, empty⟩ := ready.top drops
    have same : { r with pending := [] } = r := by
      obtain ⟨_, _, _, _, _⟩ := r
      cases empty
      rfl
    rw [ready.eq_nil empty, flushed_nil empty, same, ok_bind]
    simp [Expansions.Within, references, characterReferences]
  · rw [bind_eq_ok]
    constructor
    · rintro ⟨_, flushes, rest⟩
      obtain ⟨within, rfl⟩ := (flush_eq_ok ready.toHolds _).mp flushes
      exact ⟨within, rest⟩
    · rintro ⟨within, rest⟩
      exact ⟨_, (flush_eq_ok ready.toHolds _).mpr ⟨within, rfl⟩, rest⟩

theorem length_open_flushed (r : Reading) (text : List Char) : (r.flushed text).open_.length = r.open_.length := by
  obtain ⟨open_, _, _, _, _⟩ := r
  cases open_ <;> rfl

theorem elementKey_simple {name : String} (simple : SimpleName name) : elementKey name.toList = name := by
  simp only [elementKey, String.ofList_toList]
  exact if_neg simple.2.2.1

/-- The state after a start tag. -/
def tagged (r : Reading) (text : List Char) (e : Element) (closes : Bool) : Reading :=
  let o : OpenElement := { name := e.name, attributes := readableAttributes e.attributes }
  let r := { r.flushed text with
    ended := false, expansions := (r.flushed text).expansions.spend (attributeReferences e.attributes) }
  if closes then r.addElement o.close else { r with open_ := o :: r.open_ }

theorem openTag_eq_ok {r : Reading} {text : List Char} (ready : r.Ready text) {e : Element} (printable : Printable e) {closes : Bool}
    (room : closes = false → r.open_.length ≤ nestingLimit) (s : Reading) :
    r.openTag ⟨e.name.toList, (printAttributes e.attributes).tail, closes⟩ = .ok s ↔
      r.expansions.Within (references text + attributeReferences e.attributes) ∧ s = r.tagged text e closes := by
  have shallow : (!closes && decide ((r.flushed text).open_.length > nestingLimit)) = false := by
    rw [length_open_flushed]
    cases closes with
    | true => rfl
    | false => simpa using room rfl
  have undeclared : (r.flushed text).expansions.declared = [] := ready.undeclared
  have running : (r.flushed text).ended = false := by
    have := ready.running
    obtain ⟨open_, _, _, _, _⟩ := r
    cases open_ <;> exact this
  have distinct : (([] ++ e.attributes).map Prod.fst).Nodup := printable.distinct
  rw [openTag, collectAttributes_tail printable.keys, ready.flushes, Expansions.within_add, and_assoc, and_congr_right_iff]
  intro _
  simp only [shallow, Bool.false_eq_true, if_false]
  rw [bind_eq_ok]
  constructor
  · rintro ⟨_, attributes, same⟩
    obtain ⟨within, rfl⟩ := (readAttributes_printed printable.keys printable.kept distinct undeclared _).mp attributes
    simp only [running, Bool.false_eq_true, if_false, elementKey_simple printable.name, List.nil_append] at same
    cases same
    exact ⟨within, rfl⟩
  · rintro ⟨within, rfl⟩
    refine ⟨_, (readAttributes_printed printable.keys printable.kept distinct undeclared _).mpr ⟨within, rfl⟩, ?_⟩
    simp only [running, Bool.false_eq_true, if_false, elementKey_simple printable.name, List.nil_append]
    rfl

theorem markup_start {r : Reading} {text : List Char} (ready : r.Ready text) {e : Element} (printable : Printable e) {closes : Bool}
    (room : closes = false → r.open_.length ≤ nestingLimit) (rest : List Char) (x : Reading × List Char) :
    r.markup (e.name.toList ++ (printAttributes e.attributes ++ (slashIf closes ++ '>' :: rest))) = .ok x ↔
      r.expansions.Within (references text + attributeReferences e.attributes) ∧ x = (r.tagged text e closes, rest) := by
  have other : ∀ d ∈ delimiters, (e.name.toList ++ (printAttributes e.attributes ++ (slashIf closes ++ '>' :: rest))).head? ≠ some d := by
    intro d special
    rw [List.head?_append_of_ne_nil _ printable.name.toList_ne_nil]
    exact printable.name.head?_ne special
  have tag := tagText_open printable.name printable.keys closes rest
  have named := wholeName_open_ne printable.name _ (takeWhile_open e.attributes closes)
  unfold markup
  split
  · rename_i shape
    exact absurd (by rw [shape]; rfl) (other '/' (by decide))
  · rename_i shape
    exact absurd (by rw [shape]; rfl) (other '?' (by decide))
  · rename_i shape
    exact absurd (by rw [shape]; rfl) (other '!' (by decide))
  · rename_i shape
    exact absurd (by rw [shape]; rfl) (other '!' (by decide))
  · rename_i shape
    exact absurd (by rw [shape]; rfl) (other '!' (by decide))
  · rw [show ">".toList = ['>'] by decide, tag]
    simp only [named, if_false, startTag_open printable.name printable.keys]
    rw [map_eq_ok]
    constructor
    · rintro ⟨s, opened, rfl⟩
      obtain ⟨within, rfl⟩ := (openTag_eq_ok ready printable room s).mp opened
      exact ⟨within, rfl⟩
    · rintro ⟨within, rfl⟩
      exact ⟨_, (openTag_eq_ok ready printable room _).mpr ⟨within, rfl⟩, rfl⟩

end Reading

end WorkflowCompiler.Markup
