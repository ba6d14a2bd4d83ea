import Mathlib.Algebra.Ring.Nat
import Mathlib.Data.List.DropRight
import WorkflowCompiler.Markup.Reading

/-!
Texts as markup writes and reads them: trimmed, with line feeds only at the ends
of lines, and with references for the characters that have a meaning. Trimming and
reading line ends commute with writing references (`trimChars_escape`,
`normalizeLines_escape`), and reading references undoes writing them
(`expand_escape`) as long as the limit on replacements allows.
-/
namespace WorkflowCompiler.Text

theorem trimChars_eq (cs : List Char) : trimChars cs = (cs.dropWhile isBlank).rdropWhile isBlank := rfl

/-- A text without blanks at its ends. -/
def Trimmed (cs : List Char) : Prop := trimChars cs = cs

instance (cs : List Char) : Decidable (Trimmed cs) := inferInstanceAs (Decidable (_ = _))

theorem dropWhile_append_of_all {p : Char → Bool} {blanks : List Char} (all : ∀ c ∈ blanks, p c = true) (cs : List Char) :
    (blanks ++ cs).dropWhile p = cs.dropWhile p := by
  induction blanks with
  | nil => rfl
  | cons b blanks ih =>
    obtain ⟨first, others⟩ := List.forall_mem_cons.mp all
    rw [List.cons_append, List.dropWhile_cons_of_pos first, ih others]

theorem rdropWhile_append_of_all {p : Char → Bool} {blanks : List Char} (all : ∀ c ∈ blanks, p c = true) (cs : List Char) :
    (cs ++ blanks).rdropWhile p = cs.rdropWhile p := by
  simp only [List.rdropWhile, List.reverse_append]
  rw [dropWhile_append_of_all fun c member => all c (List.mem_reverse.mp member)]

theorem trimChars_append_left {blanks : List Char} (all : ∀ c ∈ blanks, isBlank c = true) (cs : List Char) :
    trimChars (blanks ++ cs) = trimChars cs := by
  rw [trimChars_eq, dropWhile_append_of_all all, ← trimChars_eq]

theorem trimChars_of_all {blanks : List Char} (all : ∀ c ∈ blanks, isBlank c = true) : trimChars blanks = [] :=
  trimChars_eq_nil_iff.mpr (List.all_eq_true.mpr all)

theorem trimChars_append_right {blanks : List Char} (all : ∀ c ∈ blanks, isBlank c = true) (cs : List Char) :
    trimChars (cs ++ blanks) = trimChars cs := by
  by_cases visible : cs.dropWhile isBlank = []
  · have hidden : ∀ c ∈ cs, isBlank c = true := List.all_eq_true.mp (dropWhile_eq_nil_iff_all.mp visible)
    rw [trimChars_of_all hidden, trimChars_append_left hidden, trimChars_of_all all]
  · rw [trimChars_eq, trimChars_eq, List.dropWhile_append, if_neg (by simpa using visible), rdropWhile_append_of_all all]

theorem trimChars_initial (cs : List Char) : trimChars cs <+: cs.dropWhile isBlank := List.rdropWhile_prefix isBlank _

theorem head?_trimChars (cs : List Char) : ∀ c ∈ (trimChars cs).head?, isBlank c = false := by
  intro c first
  obtain ⟨rest, split⟩ := trimChars_initial cs
  have visible := List.head?_dropWhile_not isBlank cs
  rw [← split, List.head?_append, Option.mem_def.mp first] at visible
  exact visible

theorem getLast?_trimChars (cs : List Char) : ∀ c ∈ (trimChars cs).getLast?, isBlank c = false := by
  intro c last
  rw [trimChars_eq] at last
  have some : (cs.dropWhile isBlank).rdropWhile isBlank ≠ [] := by
    intro empty
    simp [empty] at last
  have visible := List.rdropWhile_last_not isBlank (cs.dropWhile isBlank) some
  rw [List.getLast?_eq_getLast_of_ne_nil some, Option.mem_some_iff] at last
  simpa [last] using visible

theorem trimmed_iff (cs : List Char) :
    Trimmed cs ↔ (∀ c ∈ cs.head?, isBlank c = false) ∧ ∀ c ∈ cs.getLast?, isBlank c = false := by
  constructor
  · intro trimmed
    rw [← show trimChars cs = cs from trimmed]
    exact ⟨head?_trimChars cs, getLast?_trimChars cs⟩
  · rintro ⟨first, last⟩
    have front : cs.dropWhile isBlank = cs := by
      cases cs with
      | nil => rfl
      | cons c rest => rw [List.dropWhile_cons_of_neg (by simp [first c rfl])]
    rw [Trimmed, trimChars_eq, front, List.rdropWhile_eq_self_iff]
    intro some
    simp [last _ (List.getLast?_eq_getLast_of_ne_nil some)]

theorem trimmed_trimChars (cs : List Char) : Trimmed (trimChars cs) :=
  (trimmed_iff _).mpr ⟨head?_trimChars cs, getLast?_trimChars cs⟩

theorem trimChars_subset (cs : List Char) : trimChars cs ⊆ cs :=
  List.Subset.trans (trimChars_initial cs).subset (List.dropWhile_suffix isBlank).subset

end WorkflowCompiler.Text

namespace WorkflowCompiler.Markup
open Text

/-! ### References -/

/-- How many characters of a text are written as references that count against the limit on
    replacements; those to the ampersand do not. -/
def references (cs : List Char) : Nat := (characterReferences.map fun r => cs.count r.1).sum

theorem isBlank_escapeChar {c : Char} (blank : isBlank c = true) : escapeChar c = [c] := by
  unfold escapeChar
  split
  all_goals first | rfl | exact absurd blank (by decide)

theorem escapeChar_visible {c : Char} (visible : isBlank c = false) :
    ∃ first middle last, escapeChar c = first :: middle ∧ (escapeChar c).getLast? = some last ∧
      isBlank first = false ∧ isBlank last = false := by
  unfold escapeChar
  split
  · exact ⟨_, _, _, rfl, rfl, by decide, by decide⟩
  · exact ⟨_, _, _, rfl, rfl, by decide, by decide⟩
  · exact ⟨_, _, _, rfl, rfl, by decide, by decide⟩
  · exact ⟨_, _, _, rfl, rfl, by decide, by decide⟩
  · exact ⟨_, _, _, rfl, rfl, by decide, by decide⟩
  · exact ⟨_, _, _, rfl, rfl, visible, visible⟩

theorem escape_cons (c : Char) (cs : List Char) : escape (c :: cs) = escapeChar c ++ escape cs := rfl

theorem escape_append (a b : List Char) : escape (a ++ b) = escape a ++ escape b := List.flatMap_append ..

theorem dropWhile_escape (cs : List Char) : (escape cs).dropWhile isBlank = escape (cs.dropWhile isBlank) := by
  induction cs with
  | nil => rfl
  | cons c cs ih =>
    cases blank : isBlank c with
    | true =>
      rw [escape_cons, isBlank_escapeChar blank, List.dropWhile_cons_of_pos blank, ← ih]
      exact List.dropWhile_cons_of_pos blank
    | false =>
      obtain ⟨first, middle, _, shape, _, visible, _⟩ := escapeChar_visible blank
      rw [escape_cons, shape, List.cons_append, List.dropWhile_cons_of_neg (by simp [visible]),
        List.dropWhile_cons_of_neg (by simp [blank]), escape_cons, shape]
      rfl

theorem rdropWhile_escape (cs : List Char) : (escape cs).rdropWhile isBlank = escape (cs.rdropWhile isBlank) := by
  induction cs using List.reverseRecOn with
  | nil => rfl
  | append_singleton cs c ih =>
    rw [escape_append]
    have single : escape [c] = escapeChar c := List.flatMap_singleton ..
    rw [single]
    cases blank : isBlank c with
    | true => rw [isBlank_escapeChar blank, List.rdropWhile_concat_pos _ _ _ blank, List.rdropWhile_concat_pos _ _ _ blank, ih]
    | false =>
      obtain ⟨_, _, last, _, ends, _, visible⟩ := escapeChar_visible blank
      obtain ⟨front, shape⟩ := List.getLast?_eq_some_iff.mp ends
      rw [List.rdropWhile_concat_neg _ _ _ (by simp [blank]), escape_append, single, shape, ← List.append_assoc,
        List.rdropWhile_concat_neg _ _ _ (by simp [visible])]

theorem trimChars_escape (cs : List Char) : trimChars (escape cs) = escape (trimChars cs) := by
  rw [trimChars_eq, dropWhile_escape, rdropWhile_escape]
  rfl

/-! ### Ends of lines -/

theorem normalizeLines_cons {c : Char} (other : c ≠ '\r') (cs : List Char) :
    normalizeLines (c :: cs) = c :: normalizeLines cs := by
  rw [normalizeLines]
  · exact fun _ same _ => other same
  · exact fun same => other same

theorem not_mem_normalizeLines (cs : List Char) : '\r' ∉ normalizeLines cs := by
  fun_induction normalizeLines cs with
  | case1 rest ih => simpa using ih
  | case2 rest _ ih => simpa using ih
  | case3 c rest _ other ih => simpa [Ne.symm other] using ih
  | case4 => simp

theorem normalizeLines_of_not_mem {cs : List Char} (plain : '\r' ∉ cs) : normalizeLines cs = cs := by
  induction cs with
  | nil => rfl
  | cons c cs ih =>
    obtain ⟨other, plain⟩ := not_or.mp (fun h => plain (List.mem_cons.mpr h))
    rw [normalizeLines_cons (Ne.symm other), ih plain]

/-- Lines do not end across a place with no line feed after it. -/
theorem normalizeLines_append (a : List Char) {b : List Char} (apart : b.head? ≠ some '\n') :
    normalizeLines (a ++ b) = normalizeLines a ++ normalizeLines b := by
  fun_induction normalizeLines a with
  | case1 rest ih => rw [List.cons_append, List.cons_append, normalizeLines, ih, List.cons_append]
  | case2 rest other ih =>
    rw [List.cons_append, List.cons_append, ← ih, normalizeLines]
    intro more same
    cases rest with
    | nil => exact apart (by rw [← List.nil_append b, same]; rfl)
    | cons c rest => exact other rest (by rw [(List.cons.inj same).1])
  | case3 c rest _ other ih => rw [List.cons_append, normalizeLines_cons (fun same => other same), ih, List.cons_append]
  | case4 => rfl

theorem normalizeLines_append_of_not_mem {a : List Char} (plain : '\r' ∉ a) (b : List Char) :
    normalizeLines (a ++ b) = a ++ normalizeLines b := by
  induction a with
  | nil => rfl
  | cons c a ih =>
    obtain ⟨other, plain⟩ := not_or.mp (fun h => plain (List.mem_cons.mpr h))
    rw [List.cons_append, normalizeLines_cons (Ne.symm other), ih plain, List.cons_append]

theorem escapeChar_plain {c : Char} (other : c ≠ '\r') : '\r' ∉ escapeChar c := by
  unfold escapeChar
  split
  all_goals first | decide | simpa using Ne.symm other

theorem normalizeLines_escape (cs : List Char) : normalizeLines (escape cs) = escape (normalizeLines cs) := by
  fun_induction normalizeLines cs with
  | case1 rest ih =>
    rw [escape_cons, escape_cons, escape_cons, ← ih]
    rfl
  | case2 rest other ih =>
    rw [escape_cons, escape_cons, ← ih]
    show normalizeLines ('\r' :: escape rest) = '\n' :: normalizeLines (escape rest)
    rw [normalizeLines]
    intro more same
    cases rest with
    | nil => cases same
    | cons c rest =>
      rw [escape_cons] at same
      unfold escapeChar at same
      split at same
      all_goals first | exact absurd (List.cons.inj same).1 (by decide) | exact other rest (by rw [(List.cons.inj same).1])
  | case3 c rest _ other ih =>
    rw [escape_cons, escape_cons, normalizeLines_append_of_not_mem (escapeChar_plain fun same => other same), ih]
  | case4 => rfl

/-! ### Replacing references -/

/-- Replaces what is found by one character. -/
def replaceBy (found : List Char → Option Nat) (c : Char) (skip : Nat) (cs : List Char) : List Char × Nat :=
  replaceEach found (fun _ _ => [c]) [] skip cs

section
variable {found : List Char → Option Nat} {value c : Char} {cs rest : List Char}

theorem replaceEach_eq_replaceBy (before : List Char) (skip : Nat) (cs : List Char) :
    replaceEach found (fun _ _ => [value]) before skip cs = replaceBy found value skip cs := by
  induction cs generalizing before skip with
  | nil => simp [replaceBy, replaceEach]
  | cons c cs ih =>
    cases skip with
    | succ skip => rw [replaceBy, replaceEach, replaceEach, ih, ih]
    | zero =>
      rw [replaceBy, replaceEach, replaceEach]
      simp only [ih]

theorem replaceBy_skip (skipped rest : List Char) :
    replaceBy found value skipped.length (skipped ++ rest) = replaceBy found value 0 rest := by
  induction skipped with
  | nil => rfl
  | cons c skipped ih => rw [List.length_cons, List.cons_append, replaceBy, replaceEach, replaceEach_eq_replaceBy, ih]

theorem replaceBy_miss (none : found (c :: cs) = none) :
    replaceBy found value 0 (c :: cs) = (c :: (replaceBy found value 0 cs).1, (replaceBy found value 0 cs).2) := by
  rw [replaceBy, replaceEach, none]
  simp only [replaceEach_eq_replaceBy]

theorem replaceBy_hit {spelling : List Char} (hit : found (c :: spelling ++ rest) = some (spelling.length + 1)) :
    replaceBy found value 0 (c :: spelling ++ rest) =
      (value :: (replaceBy found value 0 rest).1, (replaceBy found value 0 rest).2 + 1) := by
  rw [List.cons_append] at hit ⊢
  rw [replaceBy, replaceEach, hit]
  simp only [replaceEach_eq_replaceBy, Nat.add_sub_cancel, replaceBy_skip]
  rfl

/-- Nothing is found within these characters. -/
theorem replaceBy_pass (passed : List Char) (none : ∀ c ∈ passed, ∀ more, found (c :: more) = none) (rest : List Char) :
    replaceBy found value 0 (passed ++ rest) =
      (passed ++ (replaceBy found value 0 rest).1, (replaceBy found value 0 rest).2) := by
  induction passed with
  | nil => rfl
  | cons c passed ih =>
    obtain ⟨first, others⟩ := List.forall_mem_cons.mp none
    rw [List.cons_append, replaceBy_miss (first _), ih others]
    rfl

end

/-- The characters that are written as references. -/
def specialChars : List Char := ['&', '>', '<', '\'', '"']

theorem escapeChar_other {c : Char} (plain : c ∉ specialChars) : escapeChar c = [c] := by
  unfold escapeChar
  split
  all_goals first | rfl | exact absurd plain (by decide)

/-- How a character stands in a text where references to some characters have been replaced. -/
def escapeBut (done : List Char) (c : Char) : List Char := if c ∈ done then [c] else escapeChar c

theorem foundSpelling_none {spellings : List (List Char)} (marked : ∀ s ∈ spellings, s.head? = some '&') {c : Char}
    (other : c ≠ '&') (more : List Char) : foundSpelling spellings (c :: more) = none := by
  rw [foundSpelling, Option.map_eq_none_iff, List.find?_eq_none]
  intro s member
  cases s with
  | nil => cases marked _ member
  | cons m s =>
    obtain rfl : m = '&' := Option.some.inj (marked _ member)
    simp [afterPrefix?, Ne.symm other]

/-- The references to one character are told from all others. -/
structure Spells (spellings : List (List Char)) (value : Char) : Prop where
  special : value ∈ specialChars
  marked : ∀ s ∈ spellings, s.head? = some '&'
  hit : ∀ rest, foundSpelling spellings (escapeChar value ++ rest) = some (escapeChar value).length
  miss : ∀ c ∈ specialChars, c ≠ value → ∀ rest, foundSpelling spellings (escapeChar c ++ rest) = none

theorem escapeChar_special {c : Char} (special : c ∈ specialChars) :
    ∃ body, escapeChar c = '&' :: body ∧ '&' ∉ body := by
  simp only [specialChars, List.mem_cons, List.not_mem_nil, or_false] at special
  rcases special with rfl | rfl | rfl | rfl | rfl
  all_goals exact ⟨_, rfl, by decide⟩

theorem replaceCharacter_escapeBut {spellings : List (List Char)} {value : Char} (spells : Spells spellings value)
    {done : List Char} (notDone : value ∉ done) (later : '&' ∉ done) (cs : List Char) :
    replaceCharacter value spellings (cs.flatMap (escapeBut done)) =
      (cs.flatMap (escapeBut (value :: done)), cs.count value) := by
  show replaceBy (foundSpelling spellings) value 0 _ = _
  induction cs with
  | nil => rfl
  | cons c cs ih =>
    rw [List.flatMap_cons, List.flatMap_cons]
    by_cases same : c = value
    · subst same
      obtain ⟨body, shape, _⟩ := escapeChar_special spells.special
      have hit := spells.hit (cs.flatMap (escapeBut done))
      rw [escapeBut, if_neg notDone, shape] at *
      rw [replaceBy_hit hit, ih, escapeBut, if_pos (List.mem_cons_self ..), List.count_cons_self]
      rfl
    · have rest : replaceBy (foundSpelling spellings) value 0 (escapeBut done c ++ cs.flatMap (escapeBut done)) =
          (escapeBut done c ++ (replaceBy (foundSpelling spellings) value 0 (cs.flatMap (escapeBut done))).1,
            (replaceBy (foundSpelling spellings) value 0 (cs.flatMap (escapeBut done))).2) := by
        have plain (other : c ≠ '&') : ∀ x ∈ [c], ∀ more, foundSpelling spellings (x :: more) = none := by
          intro x member
          rw [List.mem_singleton.mp member]
          exact foundSpelling_none spells.marked other
        by_cases replaced : c ∈ done
        · rw [escapeBut, if_pos replaced]
          exact replaceBy_pass _ (plain fun amp => later (amp ▸ replaced)) _
        · rw [escapeBut, if_neg replaced]
          by_cases special : c ∈ specialChars
          · obtain ⟨body, shape, single⟩ := escapeChar_special special
            have miss := spells.miss c special same (cs.flatMap (escapeBut done))
            rw [shape] at miss ⊢
            rw [List.cons_append] at miss ⊢
            rw [replaceBy_miss miss, replaceBy_pass body]
            · rfl
            · exact fun x member => foundSpelling_none spells.marked fun amp => single (amp ▸ member)
          · rw [escapeChar_other special]
            exact replaceBy_pass _ (plain fun amp => special (by rw [amp]; decide)) _
      have unchanged : escapeBut (value :: done) c = escapeBut done c := by simp [escapeBut, same]
      rw [rest, ih, List.count_cons_of_ne same, unchanged]

theorem spells_of_mem : ∀ r ∈ characterReferences ++ [('&', ampersandReferences)], Spells r.2 r.1 := by
  intro r member
  simp only [characterReferences, List.cons_append, List.nil_append, List.mem_cons, List.not_mem_nil, or_false] at member
  rcases member with rfl | rfl | rfl | rfl | rfl
  all_goals
    refine ⟨by decide, by decide, fun rest => rfl, ?_⟩
    intro c special other rest
    simp only [specialChars, List.mem_cons, List.not_mem_nil, or_false] at special
    rcases special with rfl | rfl | rfl | rfl | rfl
    all_goals first | rfl | exact absurd rfl other

/-- There is room for more replacements. -/
def Expansions.Within (x : Expansions) (more : Nat) : Prop := more = 0 ∨ x.count + more ≤ expansionLimit

def Expansions.spend (x : Expansions) (more : Nat) : Expansions := { x with count := x.count + more }

@[simp] theorem Expansions.declared_spend (x : Expansions) (more : Nat) : (x.spend more).declared = x.declared := rfl

theorem Expansions.spend_zero (x : Expansions) : x.spend 0 = x := rfl

theorem Expansions.spend_spend (x : Expansions) (m n : Nat) : (x.spend m).spend n = x.spend (m + n) := by
  simp [spend, Nat.add_assoc]

theorem Expansions.within_add (x : Expansions) (m n : Nat) :
    x.Within (m + n) ↔ x.Within m ∧ (x.spend m).Within n := by
  simp only [Within, spend]
  omega

theorem Expansions.counted_eq_ok (x after : Expansions) (more : Nat) :
    x.counted more = .ok after ↔ x.Within more ∧ after = x.spend more := by
  unfold counted Within
  split
  · rename_i tooMany
    constructor
    · intro refused
      cases refused
    · intro within
      omega
  · rename_i within
    constructor
    · intro same
      cases same
      exact ⟨by omega, rfl⟩
    · rintro ⟨_, rfl⟩
      rfl

theorem ok_bind {ε α β : Type} (a : α) (next : α → Except ε β) : (Except.ok a >>= next) = next a := rfl

theorem bind_eq_ok {ε α β : Type} {x : Except ε α} {next : α → Except ε β} {y : β} :
    x >>= next = .ok y ↔ ∃ a, x = .ok a ∧ next a = .ok y := by
  cases x with
  | error fault =>
    constructor
    · intro refused
      cases refused
    · rintro ⟨_, refused, _⟩
      cases refused
  | ok a =>
    constructor
    · intro passed
      exact ⟨a, rfl, passed⟩
    · rintro ⟨_, same, passed⟩
      cases same
      exact passed

theorem map_eq_ok {ε α β : Type} {x : Except ε α} {f : α → β} {y : β} : x.map f = .ok y ↔ ∃ a, x = .ok a ∧ f a = y := by
  cases x with
  | error fault =>
    constructor
    · intro refused
      cases refused
    · rintro ⟨_, refused, _⟩
      cases refused
  | ok a => simp [Except.map]

theorem expandCharacters_escapeBut {refs : List (Char × List (List Char))} (spells : ∀ r ∈ refs, Spells r.2 r.1)
    {done : List Char} (distinct : (refs.map Prod.fst ++ done).Nodup) (later : '&' ∉ refs.map Prod.fst ++ done)
    (x : Expansions) (cs : List Char) (result : List Char × Expansions) :
    expandCharacters x (cs.flatMap (escapeBut done)) refs = .ok result ↔
      x.Within (refs.map fun r => cs.count r.1).sum ∧
        result = (cs.flatMap (escapeBut ((refs.map Prod.fst).reverse ++ done)), x.spend (refs.map fun r => cs.count r.1).sum) := by
  induction refs generalizing done x with
  | nil =>
    simp [expandCharacters, Expansions.Within, Expansions.spend_zero, eq_comm]
  | cons r refs ih =>
    obtain ⟨first, others⟩ := List.forall_mem_cons.mp spells
    have notDone : r.1 ∉ done := fun member =>
      (List.nodup_append.mp distinct).2.2 _ (List.mem_cons_self ..) _ member rfl
    have notAmp : '&' ∉ done := fun member => later (List.mem_append_right _ member)
    have distinct' : (refs.map Prod.fst ++ r.1 :: done).Nodup := by
      refine (List.perm_middle.nodup_iff).mpr ?_
      simpa using distinct
    have later' : '&' ∉ refs.map Prod.fst ++ r.1 :: done := by
      simpa [or_left_comm, and_left_comm] using later
    obtain ⟨value, spellings⟩ := r
    simp only [expandCharacters, replaceCharacter_escapeBut first notDone notAmp, bind_eq_ok, Expansions.counted_eq_ok]
    simp only [List.map_cons, List.sum_cons, List.reverse_cons, List.append_assoc, List.singleton_append,
      Expansions.within_add, ← Expansions.spend_spend]
    constructor
    · rintro ⟨_, ⟨within, rfl⟩, expanded⟩
      obtain ⟨later, same⟩ := (ih others distinct' later' _).mp expanded
      exact ⟨⟨within, later⟩, same⟩
    · rintro ⟨⟨within, later⟩, same⟩
      exact ⟨_, ⟨within, rfl⟩, (ih others distinct' later' _).mpr ⟨later, same⟩⟩

theorem plain_of_escape {cs : List Char} (unmarked : '&' ∉ escape cs) : ∀ c ∈ cs, c ∉ specialChars := by
  intro c member special
  obtain ⟨body, shape, _⟩ := escapeChar_special special
  exact unmarked (List.mem_flatMap.mpr ⟨c, member, by rw [shape]; exact List.mem_cons_self ..⟩)

theorem escape_of_plain {cs : List Char} (plain : ∀ c ∈ cs, c ∉ specialChars) : escape cs = cs := by
  induction cs with
  | nil => rfl
  | cons c cs ih =>
    obtain ⟨first, others⟩ := List.forall_mem_cons.mp plain
    rw [escape_cons, escapeChar_other first, ih others]
    rfl

theorem references_of_plain {cs : List Char} (plain : ∀ c ∈ cs, c ∉ specialChars) : references cs = 0 := by
  have absent (c : Char) (special : c ∈ specialChars) : cs.count c = 0 :=
    List.count_eq_zero.mpr fun member => plain c member special
  simp [references, characterReferences, absent '\'' (by decide), absent '>' (by decide), absent '<' (by decide),
    absent '"' (by decide)]

theorem escapeBut_specialChars (c : Char) : escapeBut ['&', '"', '<', '>', '\''] c = [c] := by
  unfold escapeBut
  split
  · rfl
  · rename_i other
    refine escapeChar_other fun special => other ?_
    simp only [specialChars, List.mem_cons, List.not_mem_nil, or_false] at special ⊢
    tauto

/-- Reading references undoes writing them, as long as there is room for the replacements. -/
theorem expand_escape {x : Expansions} (undeclared : x.declared = []) (cs : List Char) (result : List Char × Expansions) :
    expand x (escape cs) = .ok result ↔ x.Within (references cs) ∧ result = (cs, x.spend (references cs)) := by
  unfold expand
  by_cases marked : '&' ∈ escape cs
  · obtain ⟨characters, amp⟩ := List.forall_mem_append.mp spells_of_mem
    have first := expandCharacters_escapeBut characters (by decide : (_ ++ []).Nodup) (by decide) x cs
    have last := replaceCharacter_escapeBut (amp _ (List.mem_singleton_self _)) (by decide : '&' ∉ ['"', '<', '>', '\''])
      (by decide) cs
    have whole : cs.flatMap (escapeBut ['&', '"', '<', '>', '\'']) = cs := by
      rw [funext escapeBut_specialChars, List.flatMap_singleton']
    rw [whole] at last
    rw [if_neg (not_not.mpr marked), undeclared]
    show (if '&' ∉ escape cs then _ else _) = _ ↔ _
    rw [if_neg (not_not.mpr marked), bind_eq_ok]
    constructor
    · rintro ⟨_, expanded, same⟩
      obtain ⟨within, rfl⟩ := (first _).mp expanded
      cases same
      exact ⟨within, congrArg (fun r => (r, x.spend (references cs))) (congrArg Prod.fst last)⟩
    · rintro ⟨within, rfl⟩
      refine ⟨_, (first _).mpr ⟨within, rfl⟩, ?_⟩
      exact congrArg (fun r => Except.ok (r, x.spend (references cs))) (congrArg Prod.fst last)
  · have plain := plain_of_escape marked
    rw [if_pos marked, escape_of_plain plain, references_of_plain plain]
    simp [Expansions.Within, Expansions.spend_zero, eq_comm]

end WorkflowCompiler.Markup
