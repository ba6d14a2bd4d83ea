import WorkflowCompiler.Definition.Expression
import WorkflowCompiler.Proofs.Markup.Reading

/-!
What an expression stands for. It is scanned once from left to right, each reference goes up to the next closing brace, and
a reference stands for the value of its variable as it is (`Scans`, `Piece.Means`, `Resolves`). An expression has a result
exactly if it stands for one and is not torn, and then that is its result (`resolveExpression_eq_ok_iff`). A torn expression
is one in which taking out the references would bring a dollar sign and a brace together (`Torn`): all its references are
closed, and it is refused as if one were not (`resolveExpression_torn`).
-/
namespace WorkflowCompiler

namespace Text
variable {mark cs before rest : List Char}

theorem afterPrefix?_append (mark rest : List Char) : afterPrefix? mark (mark ++ rest) = some rest := by
  induction mark with
  | nil => rfl
  | cons m mark ih => rw [List.cons_append, afterPrefix?, if_pos rfl, ih]

/-- A mark is found exactly where it occurs. -/
theorem isSome_breakOn_iff : (breakOn mark cs).isSome = true ↔ mark <:+: cs := by
  constructor
  · intro found
    obtain ⟨⟨before, rest⟩, found⟩ := Option.isSome_iff_exists.mp found
    exact ⟨before, rest, (eq_append_of_breakOn found).symm⟩
  · rintro ⟨before, rest, rfl⟩
    induction before with
    | nil =>
      rw [List.nil_append]
      cases whole : mark ++ rest with
      | nil => rw [breakOn, ← whole, afterPrefix?_append]; rfl
      | cons c cs => rw [breakOn, ← whole, afterPrefix?_append]; rfl
    | cons c before ih =>
      rw [List.cons_append, List.cons_append, breakOn]
      split
      · rfl
      · rw [Option.isSome_map, ih]

/-- A mark of one character is cut at where it occurs first. -/
theorem not_mem_of_breakOn {m : Char} (found : breakOn [m] cs = some (before, rest)) : m ∉ before := by
  induction cs generalizing before with
  | nil => cases found
  | cons c cs ih =>
    rw [breakOn, Markup.afterPrefix?_single] at found
    by_cases here : m = c
    · rw [if_pos here] at found
      cases found
      exact List.not_mem_nil
    · simp only [if_neg here] at found
      obtain ⟨⟨later, _⟩, onward, same⟩ := Option.map_eq_some_iff.mp found
      cases same
      exact List.mem_cons.not.mpr (not_or.mpr ⟨here, ih onward⟩)

end Text

namespace Definition
open Text

/-- A scan from left to right. A reference goes from `$\x7b` up to the next `\x7d`, and any other character stands alone;
    a text in which a reference is not closed has no scan. -/
inductive Scans : List Char → List Piece → Prop
  | done : Scans [] []
  | literal {c : Char} {rest : List Char} {ps : List Piece} (plain : ¬ ['$', '\x7b'] <+: c :: rest) (onward : Scans rest ps) :
      Scans (c :: rest) (.literal c :: ps)
  | reference {body rest : List Char} {ps : List Piece} (closed : '\x7d' ∉ body) (onward : Scans rest ps) :
      Scans ('$' :: '\x7b' :: (body ++ '\x7d' :: rest)) (.reference body :: ps)

/-- A letter or an underscore, and then letters, digits, underscores, dots and hyphens. -/
def VariableName (name : List Char) : Prop :=
  ∃ first rest, name = first :: rest ∧ (first.isAlpha = true ∨ first = '_') ∧
    ∀ c ∈ rest, c.isAlphanum = true ∨ c ∈ ['_', '.', '-']

/-- What a piece stands for. -/
inductive Piece.Means (conf : Dict String) : Piece → List Char → Prop
  | literal (c : Char) : Means conf (.literal c) [c]
  | reference {body : List Char} {value : String} (named : VariableName (trimChars body))
      (set : conf.get? (String.ofList (trimChars body)) = some value) : Means conf (.reference body) value.toList

/-- An expression with the values of its references in place. -/
def Resolves (conf : Dict String) (expression result : String) : Prop :=
  ∃ ps texts, Scans expression.toList ps ∧ List.Forall₂ (Piece.Means conf) ps texts ∧ result.toList = texts.flatten

/-- A dollar sign that stands alone, then nothing but references, and then a brace that stands alone. -/
def Torn (expression : String) : Prop :=
  ∃ before refs after, Scans expression.toList (before ++ .literal '$' :: (refs ++ .literal '\x7b' :: after)) ∧
    ∀ p ∈ refs, ∃ body, p = .reference body

variable {conf : Dict String} {cs body : List Char} {ps : List Piece} {expression result : String}

/-! ### The pieces of an expression -/

theorem pieces_open (unclosed : breakOn ['\x7d'] cs = none) :
    pieces ('$' :: '\x7b' :: cs) = .literal '$' :: .literal '\x7b' :: pieces cs := by
  rw [pieces]
  split
  · rename_i closed
    rw [unclosed] at closed
    cases closed
  · rfl

theorem pieces_reference {rest : List Char} (closed : breakOn ['\x7d'] cs = some (body, rest)) :
    pieces ('$' :: '\x7b' :: cs) = .reference body :: pieces rest := by
  rw [pieces]
  split
  · rename_i body' rest' found
    rw [closed] at found
    cases found
    rfl
  · rename_i unclosed
    rw [closed] at unclosed
    cases unclosed

theorem pieces_literal {c : Char} (plain : ¬ ['$', '\x7b'] <+: c :: cs) : pieces (c :: cs) = .literal c :: pieces cs := by
  rw [pieces]
  intro rest dollar brace
  subst dollar brace
  exact plain ⟨rest, rfl⟩

/-- There is only one scan. -/
theorem Scans.pieces_eq (scans : Scans cs ps) : pieces cs = ps := by
  induction scans with
  | done => rw [pieces]
  | literal plain _ ih => rw [pieces_literal plain, ih]
  | reference closed _ ih => rw [pieces_reference (Markup.breakOn_single closed _), ih]

/-- Where no dollar sign comes before a brace, every reference is closed. -/
theorem scans_pieces (whole : ¬ ['$', '\x7b'] <:+: literalText (pieces cs)) : Scans cs (pieces cs) := by
  induction cs using pieces.induct with
  | case1 =>
    rw [pieces]
    exact .done
  | case2 rest body onward found ih =>
    rw [pieces_reference found] at whole ⊢
    rw [eq_append_of_breakOn found, List.append_assoc, List.singleton_append]
    exact .reference (not_mem_of_breakOn found) (ih whole)
  | case3 rest unclosed ih =>
    rw [pieces_open unclosed] at whole
    exact absurd ⟨[], literalText (pieces rest), rfl⟩ whole
  | case4 c rest other ih =>
    have plain : ¬ ['$', '\x7b'] <+: c :: rest := by
      rintro ⟨more, same⟩
      cases same
      exact other more rfl rfl
    rw [pieces_literal plain] at whole ⊢
    exact .literal plain (ih fun inside => whole (inside.trans (List.suffix_cons c _).isInfix))

/-- A character that is left stands alone, after nothing but references. -/
theorem literalText_eq_cons_iff {c : Char} : literalText ps = c :: cs ↔
    ∃ refs after, ps = refs ++ .literal c :: after ∧ (∀ p ∈ refs, ∃ body, p = .reference body) ∧ literalText after = cs := by
  rw [literalText, List.filterMap_eq_cons_iff]
  constructor
  · rintro ⟨refs, p, after, rfl, passed, kept, rest⟩
    cases p with
    | reference body => cases kept
    | literal d =>
      cases kept
      refine ⟨refs, after, rfl, fun p member => ?_, rest⟩
      cases p with
      | literal d => cases passed _ member
      | reference body => exact ⟨body, rfl⟩
  · rintro ⟨refs, after, rfl, references, rest⟩
    refine ⟨refs, .literal c, after, rfl, fun p member => ?_, rfl, rest⟩
    obtain ⟨body, rfl⟩ := references p member
    rfl

/-- Taking out the references brings a dollar sign and a brace together where there is nothing else between them. -/
theorem infix_literalText_iff : ['$', '\x7b'] <:+: literalText ps ↔
    ∃ before refs after, ps = before ++ .literal '$' :: (refs ++ .literal '\x7b' :: after) ∧ ∀ p ∈ refs, ∃ body, p = .reference body := by
  constructor
  · rintro ⟨left, right, same⟩
    rw [List.append_assoc] at same
    obtain ⟨before, others, rfl, _, same⟩ := List.filterMap_eq_append_iff.mp same.symm
    obtain ⟨skipped, others, rfl, _, same⟩ := literalText_eq_cons_iff.mp same
    obtain ⟨refs, after, rfl, references, _⟩ := literalText_eq_cons_iff.mp same
    exact ⟨before ++ skipped, refs, after, (List.append_assoc ..).symm, references⟩
  · rintro ⟨before, refs, after, rfl, references⟩
    have brace : literalText (refs ++ .literal '\x7b' :: after) = '\x7b' :: literalText after :=
      literalText_eq_cons_iff.mpr ⟨refs, after, rfl, references, rfl⟩
    have dollar : literalText (.literal '$' :: (refs ++ .literal '\x7b' :: after)) = '$' :: '\x7b' :: literalText after :=
      literalText_eq_cons_iff.mpr ⟨[], _, rfl, List.forall_mem_nil _, brace⟩
    refine ⟨literalText before, literalText after, ?_⟩
    have split (others : List Piece) : literalText (before ++ others) = literalText before ++ literalText others :=
      List.filterMap_append
    rw [split, dollar, List.append_assoc]
    rfl

/-! ### The values of references -/

theorem isVariableName_iff {name : List Char} : isVariableName name = true ↔ VariableName name := by
  cases name with
  | nil => simp [isVariableName, VariableName]
  | cons first rest => simp [isVariableName, VariableName, isVariableStart, isVariableChar, or_assoc]

theorem resolveReference_eq_ok_iff {value : List Char} :
    resolveReference conf body = .ok value ↔ Piece.Means conf (.reference body) value := by
  unfold resolveReference
  dsimp only
  constructor
  · intro done
    split at done
    · cases done
    · rename_i named
      split at done
      · cases done
      · rename_i text set
        cases done
        exact .reference (isVariableName_iff.mp (by simpa using named)) set
  · rintro (_ | ⟨named, set⟩)
    rw [if_neg (by simpa using isVariableName_iff.mpr named), set]

theorem substitute_cons_eq_ok_iff {p : Piece} {value : List Char} : substitute conf (p :: ps) = .ok value ↔
    ∃ text later, p.Means conf text ∧ substitute conf ps = .ok later ∧ value = text ++ later := by
  cases p with
  | literal c =>
    rw [substitute, Markup.map_eq_ok]
    constructor
    · rintro ⟨later, done, rfl⟩
      exact ⟨[c], later, .literal c, done, rfl⟩
    · rintro ⟨_, later, ⟨⟩, done, rfl⟩
      exact ⟨later, done, rfl⟩
  | reference body =>
    rw [substitute]
    constructor
    · intro done
      split at done
      · cases done
      · rename_i text resolved
        obtain ⟨later, onward, rfl⟩ := Markup.map_eq_ok.mp done
        exact ⟨text, later, resolveReference_eq_ok_iff.mp resolved, onward, rfl⟩
    · rintro ⟨text, later, means, done, rfl⟩
      rw [resolveReference_eq_ok_iff.mpr means, done]
      rfl

theorem substitute_eq_ok_iff {value : List Char} :
    substitute conf ps = .ok value ↔ ∃ texts, List.Forall₂ (Piece.Means conf) ps texts ∧ value = texts.flatten := by
  induction ps generalizing value with
  | nil =>
    constructor
    · intro done
      cases done
      exact ⟨[], .nil, rfl⟩
    · rintro ⟨_, ⟨⟩, rfl⟩
      rfl
  | cons p rest ih =>
    rw [substitute_cons_eq_ok_iff]
    constructor
    · rintro ⟨text, later, means, done, rfl⟩
      obtain ⟨texts, others, rfl⟩ := ih.mp done
      exact ⟨text :: texts, .cons means others, rfl⟩
    · rintro ⟨_, _ | ⟨means, others⟩, rfl⟩
      exact ⟨_, _, means, ih.mpr ⟨_, others, rfl⟩, rfl⟩

/-! ### Expressions -/

theorem torn_iff (scans : Scans expression.toList ps) : Torn expression ↔ ['$', '\x7b'] <:+: literalText ps := by
  rw [infix_literalText_iff]
  constructor
  · rintro ⟨before, refs, after, torn, references⟩
    exact ⟨before, refs, after, scans.pieces_eq.symm.trans torn.pieces_eq, references⟩
  · rintro ⟨before, refs, after, rfl, references⟩
    exact ⟨before, refs, after, scans, references⟩

/-- An expression has a result exactly if it stands for one and is not torn; it is what the expression stands for. -/
theorem resolveExpression_eq_ok_iff :
    resolveExpression expression conf = .ok result ↔ Resolves conf expression result ∧ ¬ Torn expression := by
  unfold resolveExpression
  dsimp only
  constructor
  · intro done
    split at done
    · cases done
    · rename_i whole
      rw [isSome_breakOn_iff] at whole
      obtain ⟨value, substituted, rfl⟩ := Markup.map_eq_ok.mp done
      obtain ⟨texts, means, rfl⟩ := substitute_eq_ok_iff.mp substituted
      have scans := scans_pieces whole
      exact ⟨⟨_, texts, scans, means, String.toList_ofList⟩, (torn_iff scans).not.mpr whole⟩
  · rintro ⟨⟨ps, texts, scans, means, same⟩, whole⟩
    rw [torn_iff scans, ← isSome_breakOn_iff] at whole
    rw [scans.pieces_eq, if_neg whole, substitute_eq_ok_iff.mpr ⟨texts, means, rfl⟩, ← same]
    exact congrArg Except.ok String.ofList_toList

/-- A reference between a dollar sign and a brace, and a value for it. -/
def tornExpression : String := "$$\x7ba\x7d\x7b"

/-- Its only reference is closed and its variable is set, so that it stands for `$1\x7b`; it is refused as unterminated. -/
theorem resolveExpression_torn : Resolves (.ofList [("a", "1")]) tornExpression "$1\x7b" ∧
    resolveExpression tornExpression (.ofList [("a", "1")]) = .error (.unterminated tornExpression) := by
  have named : VariableName (trimChars ['a']) := ⟨'a', [], rfl, .inl rfl, List.forall_mem_nil _⟩
  have scans : Scans tornExpression.toList [.literal '$', .reference ['a'], .literal '\x7b'] := by
    have spelled : tornExpression.toList = '$' :: '$' :: '\x7b' :: (['a'] ++ '\x7d' :: ['\x7b']) := by decide
    rw [spelled]
    exact .literal (by decide) (.reference (by decide) (.literal (by decide) .done))
  have means : List.Forall₂ (Piece.Means (.ofList [("a", "1")])) [.literal '$', .reference ['a'], .literal '\x7b']
      [['$'], "1".toList, ['\x7b']] :=
    .cons (.literal _) (.cons (.reference named rfl) (.cons (.literal _) .nil))
  refine ⟨⟨_, _, scans, means, rfl⟩, ?_⟩
  rw [resolveExpression, scans.pieces_eq]
  rfl

end Definition
end WorkflowCompiler
