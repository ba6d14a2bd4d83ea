import WorkflowCompiler.Json.Reader
import WorkflowCompiler.Proofs.Fields
import WorkflowCompiler.Proofs.Json.Numbers

/-!
Reading gives back what was written (`read_compact`). The text of a value spells
the tokens of the value (`spells_tokensOf`), and the tokens are read as the value
(`valueAt_tokensOf`), up to what JSON cannot tell apart: an absent field is not
written, an absent item and a number that is not finite read as null, and a derived
value as its own fields.
A number ends where something else begins, so a text is read in front of what no
number goes on with.
-/
namespace WorkflowCompiler.Json

/-! ### Strings -/

theorem hexQuad?_control : ∀ n < 0x20, hexQuad? '0' '0' (hexChar (n / 16)) (hexChar (n % 16)) = some n := by
  decide

theorem stringCodes_plain {c : Char} (noQuote : c ≠ '"') (noEscape : c ≠ '\\') (printable : 0x20 ≤ c.toNat) (rest : List Char) :
    stringCodes (c :: rest) = (stringCodes rest).map fun r => (c.toNat :: r.1, r.2) := by
  rw [stringCodes]
  · rw [if_neg]
    rintro (control | escape)
    · omega
    · exact noEscape escape
  · exact noQuote
  · intro _ _ _ _ _ escape
    exact absurd escape noEscape
  · intro _ _ escape
    exact absurd escape noEscape

theorem stringCodes_quotedChar (c : Char) (rest : List Char) :
    stringCodes (quotedChar c ++ rest) = (stringCodes rest).map fun r => (c.toNat :: r.1, r.2) := by
  by_cases short : c ∈ ['"', '\\', '\x08', '\x0c', '\n', '\r', '\t']
  · simp only [List.mem_cons, List.not_mem_nil, or_false] at short
    rcases short with rfl | rfl | rfl | rfl | rfl | rfl | rfl <;> rfl
  · simp only [List.mem_cons, List.not_mem_nil, or_false, not_or] at short
    obtain ⟨noQuote, noEscape, h8, hc, hn, hr, ht⟩ := short
    rw [quotedChar, if_neg noQuote, if_neg noEscape, if_neg h8, if_neg hc, if_neg hn, if_neg hr, if_neg ht]
    by_cases control : c.toNat < 0x20
    · rw [if_pos control]
      simp only [List.cons_append, List.nil_append]
      rw [stringCodes, hexQuad?_control _ control]
    · rw [if_neg control, List.singleton_append]
      exact stringCodes_plain noQuote noEscape (by omega) rest

theorem stringCodes_quoted (cs rest : List Char) :
    stringCodes (cs.flatMap quotedChar ++ '"' :: rest) = some (cs.map Char.toNat, rest) := by
  induction cs with
  | nil => rfl
  | cons c cs ih => rw [List.flatMap_cons, List.append_assoc, stringCodes_quotedChar, ih, Option.map_some, List.map_cons]

/-- No character is half of a pair. -/
theorem charsOfCodes_cons (c : Char) (ns : List Nat) : charsOfCodes (c.toNat :: ns) = c :: charsOfCodes ns := by
  have scalar : c.toNat < 0xD800 ∨ 0xDFFF < c.toNat ∧ c.toNat < 0x110000 := c.valid
  cases ns with
  | nil =>
    have whole : ¬ (0xD800 ≤ c.toNat ∧ c.toNat < 0xE000) := by omega
    simp [charsOfCodes, whole]
  | cons n ns => rw [charsOfCodes, if_neg (by omega), if_neg (by omega), Char.ofNat_toNat]

theorem charsOfCodes_toNat (cs : List Char) : charsOfCodes (cs.map Char.toNat) = cs := by
  induction cs with
  | nil => rfl
  | cons c cs ih => rw [List.map_cons, charsOfCodes_cons, ih]

theorem token_quoted (s : String) (rest : List Char) : token (quoted s ++ rest) = some (.text s, rest) := by
  rw [quoted, List.append_assoc, List.cons_append, List.singleton_append, token, stringCodes_quoted, Option.map_some,
    charsOfCodes_toNat, String.ofList_toList]

/-! ### Tokens -/

theorem token_space {c : Char} (space : isSpace c = true) (cs : List Char) : token (c :: cs) = none := by
  simp only [isSpace, Bool.or_eq_true, beq_iff_eq] at space
  rcases space with ((rfl | rfl) | rfl) | rfl <;> rfl

/-- A text is read as given tokens, in front of whatever ends a number. -/
structure Spells (cs : List Char) (ts : List Token) : Prop where
  short : ts.length ≤ cs.length
  reads : ∀ fuel rest, Ends rest → tokensWithin (ts.length + fuel) (cs ++ rest) = (tokensWithin fuel rest).map (ts ++ ·)

namespace Spells
variable {a b : List Char} {s t : List Token} {u : Token}

theorem nil : Spells [] [] := ⟨Nat.le_refl 0, fun fuel rest _ => by simp⟩

theorem append (first : Spells a s) (second : Spells b t) (ends : ∀ rest, Ends rest → Ends (b ++ rest)) :
    Spells (a ++ b) (s ++ t) where
  short := by
    have first := first.short
    have second := second.short
    simp only [List.length_append]
    omega
  reads fuel rest after := by
    rw [List.length_append, Nat.add_assoc, List.append_assoc, first.reads _ _ (ends rest after), second.reads _ _ after,
      Option.map_map]
    simp only [Function.comp_def, List.append_assoc]

theorem tokensWithin_token {cs rest : List Char} (reads : token cs = some (u, rest)) (fuel : Nat) :
    cs ≠ [] ∧ tokensWithin (fuel + 1) cs = (tokensWithin fuel rest).map (u :: ·) := by
  cases cs with
  | nil => cases reads
  | cons c cs =>
    have visible : ¬ isSpace c = true := fun space => by
      rw [token_space space] at reads
      cases reads
    rw [tokensWithin, List.dropWhile_cons_of_neg visible]
    simp only [reads]
    exact ⟨List.cons_ne_nil c cs, trivial⟩

theorem one (reads : ∀ rest, Ends rest → token (a ++ rest) = some (u, rest)) : Spells a [u] where
  short := by
    have some_ := (tokensWithin_token (reads [] ends_nil) 0).1
    rw [List.append_nil] at some_
    exact List.length_pos_of_ne_nil some_
  reads fuel rest after := by
    rw [List.length_singleton, Nat.add_comm, (tokensWithin_token (reads rest after) fuel).2]
    simp only [List.singleton_append]

/-- Some tokens are read whatever follows. -/
theorem cons (reads : ∀ rest, token (a ++ rest) = some (u, rest)) (second : Spells b s) : Spells (a ++ b) (u :: s) where
  short := by
    have some_ := (tokensWithin_token (reads []) 0).1
    rw [List.append_nil] at some_
    have first := List.length_pos_of_ne_nil some_
    have second := second.short
    simp only [List.length_append, List.length_cons]
    omega
  reads fuel rest after := by
    rw [List.length_cons, Nat.add_right_comm, List.append_assoc, (tokensWithin_token (reads (b ++ rest)) _).2,
      second.reads _ _ after, Option.map_map]
    rfl

theorem mark {c : Char} (reads : ∀ rest, token (c :: rest) = some (u, rest)) (rest : Spells a s) : Spells (c :: a) (u :: s) :=
  cons (a := [c]) reads rest

theorem text (k : String) (rest : Spells a s) : Spells (quoted k ++ a) (.text k :: s) := cons (token_quoted k) rest

/-- Blanks in front of tokens are passed over. -/
theorem blanks {c : List Char} (spaces : ∀ x ∈ c, isSpace x = true) (some_ : s ≠ []) (spells : Spells a s) : Spells (c ++ a) s where
  short := by
    have short := spells.short
    simp only [List.length_append]
    omega
  reads fuel rest after := by
    rw [← spells.reads fuel rest after]
    obtain ⟨n, more⟩ : ∃ n, s.length + fuel = n + 1 := ⟨s.length + fuel - 1, by have := List.length_pos_of_ne_nil some_; omega⟩
    rw [more, tokensWithin, tokensWithin, List.append_assoc, List.dropWhile_append_of_pos spaces]

/-- The tokens of a text with blanks behind it. -/
theorem tokens_eq (spells : Spells a s) (spaces : ∀ c ∈ b, isSpace c = true) : tokens (a ++ b) = some s := by
  obtain ⟨more, fuel⟩ : ∃ more, (a ++ b).length + 1 = s.length + (more + 1) :=
    ⟨(a ++ b).length - s.length, by have := spells.short; rw [List.length_append]; omega⟩
  have ends : Ends b := by
    intro c first
    have space := spaces c (List.mem_of_mem_head? first)
    simp only [isSpace, Bool.or_eq_true, beq_iff_eq] at space
    rcases space with ((rfl | rfl) | rfl) | rfl <;> decide
  have none : b.dropWhile isSpace = [] := List.dropWhile_eq_nil_iff.mpr spaces
  rw [tokens, fuel, spells.reads _ _ ends, tokensWithin, none]
  simp

end Spells

/-! ### Values -/

mutual

/-- The tokens of a value. -/
def tokensOf : Value → List Token
  | .absent | .null => [.null]
  | .bool b => [.bool b]
  | .number n => [numberToken n]
  | .text s => [.text s]
  | .list [] => [.openList, .closeList]
  | .list (v :: vs) => .openList :: tokensOf v ++ itemTokens vs
  | .mapping fields | .derived fields _ => .openMapping :: fieldTokens true fields

/-- The tokens of the items after the first one. -/
def itemTokens : List Value → List Token
  | [] => [.closeList]
  | v :: vs => .comma :: tokensOf v ++ itemTokens vs

def fieldTokens : Bool → List (String × Value) → List Token
  | _, [] => [.closeMapping]
  | first, (_, .absent) :: rest => fieldTokens first rest
  | first, (k, v) :: rest =>
    (if first then [] else [.comma]) ++ .text k :: .colon :: tokensOf v ++ fieldTokens false rest

end

/-- A number that is not finite is written as nothing. -/
def rereadNumber : Decimal.Binary64 → Value
  | .finite s m q => .number (.finite s m q)
  | _ => .null

mutual

/-- What is read where a value was written. -/
def reread : Value → Value
  | .absent | .null => .null
  | .bool b => .bool b
  | .number n => rereadNumber n
  | .text s => .text s
  | .list items => .list (rereadItems items)
  | .mapping fields | .derived fields _ => Value.ofEntries (rereadFields fields)

def rereadItems : List Value → List Value
  | [] => []
  | v :: vs => reread v :: rereadItems vs

def rereadFields : List (String × Value) → List (String × Value)
  | [] => []
  | (_, .absent) :: rest => rereadFields rest
  | (k, v) :: rest => (k, reread v) :: rereadFields rest

end

/-- Every number in a value is in the form in which it is read. -/
inductive Legible : Value → Prop
  | absent : Legible .absent
  | null : Legible .null
  | bool (b : Bool) : Legible (.bool b)
  | number {n : Decimal.Binary64} (canonical : n.Canonical) : Legible (.number n)
  | text (s : String) : Legible (.text s)
  | list {items : List Value} (each : ∀ v ∈ items, Legible v) : Legible (.list items)
  | mapping {fields : List (String × Value)} (each : ∀ e ∈ fields, Legible e.2) : Legible (.mapping fields)
  | derived {fields : List (String × Value)} (base : Value) (each : ∀ e ∈ fields, Legible e.2) : Legible (.derived fields base)

theorem legible_ofText? (s : Option String) : Legible (.ofText? s) := by
  cases s with
  | none => exact .absent
  | some s => exact .text s

theorem legible_texts (texts : List String) : Legible (.list (texts.map .text)) := by
  refine .list fun v member => ?_
  obtain ⟨s, -, rfl⟩ := List.mem_map.mp member
  exact .text s

theorem compactFields_present {v : Value} (present : v ≠ .absent) (first : Bool) (k : String) (rest : List (String × Value)) :
    compactFields first ((k, v) :: rest) =
      (if first then [] else [',']) ++ quoted k ++ ':' :: compactChars v ++ compactFields false rest := by
  rw [compactFields]
  exact present

theorem fieldTokens_present {v : Value} (present : v ≠ .absent) (first : Bool) (k : String) (rest : List (String × Value)) :
    fieldTokens first ((k, v) :: rest) =
      (if first then [] else [.comma]) ++ .text k :: .colon :: tokensOf v ++ fieldTokens false rest := by
  rw [fieldTokens]
  exact present

theorem rereadFields_present {v : Value} (present : v ≠ .absent) (k : String) (rest : List (String × Value)) :
    rereadFields ((k, v) :: rest) = (k, reread v) :: rereadFields rest := by
  rw [rereadFields]
  exact present

theorem ends_compactItems (vs : List Value) (rest : List Char) : Ends (compactItems vs ++ rest) := by
  cases vs <;> (rw [compactItems]; exact ends_cons (by decide) _)

theorem ends_compactFields (fields : List (String × Value)) (rest : List Char) : Ends (compactFields false fields ++ rest) := by
  induction fields with
  | nil => rw [compactFields]; exact ends_cons (by decide) _
  | cons e others ih =>
    obtain ⟨k, v⟩ := e
    by_cases absent : v = .absent
    · subst absent
      rwa [compactFields]
    · rw [compactFields_present absent]
      exact ends_cons (by decide) _

theorem spells_itemTokens {vs : List Value} (each : ∀ v ∈ vs, Spells (compactChars v) (tokensOf v)) :
    Spells (compactItems vs) (itemTokens vs) := by
  induction vs with
  | nil => rw [compactItems, itemTokens]; exact .mark (fun _ => rfl) .nil
  | cons v vs ih =>
    rw [compactItems, itemTokens]
    have rest := ih fun v member => each v (List.mem_cons_of_mem _ member)
    exact .mark (fun _ => rfl) ((each v List.mem_cons_self).append rest fun _ _ => ends_compactItems vs _)

theorem spells_fieldTokens {fields : List (String × Value)} (each : ∀ e ∈ fields, Spells (compactChars e.2) (tokensOf e.2))
    (first : Bool) : Spells (compactFields first fields) (fieldTokens first fields) := by
  induction fields generalizing first with
  | nil => rw [compactFields, fieldTokens]; exact .mark (fun _ => rfl) .nil
  | cons e rest ih =>
    obtain ⟨k, v⟩ := e
    have others := ih fun e member => each e (List.mem_cons_of_mem _ member)
    by_cases absent : v = .absent
    · subst absent
      rw [compactFields, fieldTokens]
      exact others first
    · rw [compactFields_present absent, fieldTokens_present absent, List.append_assoc, List.append_assoc, List.append_assoc]
      have value : Spells (compactChars v ++ compactFields false rest) (tokensOf v ++ fieldTokens false rest) :=
        (each (k, v) List.mem_cons_self).append (others false) fun _ _ => ends_compactFields rest _
      have entry := Spells.text k (Spells.mark (c := ':') (u := .colon) (fun _ => rfl) value)
      cases first with
      | true => exact entry
      | false => exact .mark (c := ',') (fun _ => rfl) entry

theorem spells_tokensOf {v : Value} (legible : Legible v) : Spells (compactChars v) (tokensOf v) := by
  induction legible with
  | absent => rw [compactChars, tokensOf]; exact .one fun _ _ => rfl
  | null => rw [compactChars, tokensOf]; exact .one fun _ _ => rfl
  | bool b => cases b <;> (rw [compactChars, tokensOf]; exact .one fun _ _ => rfl)
  | number canonical => rw [compactChars, tokensOf]; exact .one fun _ => token_numberText canonical
  | text s => rw [compactChars, tokensOf]; exact .one fun rest _ => token_quoted s rest
  | @list items _ ih =>
    cases items with
    | nil =>
      rw [compactChars, tokensOf]
      exact .mark (fun _ => rfl) (.mark (fun _ => rfl) .nil)
    | cons v vs =>
      rw [compactChars, tokensOf]
      have rest := spells_itemTokens fun v member => ih v (List.mem_cons_of_mem _ member)
      exact .mark (fun _ => rfl) ((ih v List.mem_cons_self).append rest fun _ _ => ends_compactItems vs _)
  | mapping _ ih => rw [compactChars, tokensOf]; exact .mark (fun _ => rfl) (spells_fieldTokens ih true)
  | derived _ _ ih => rw [compactChars, tokensOf]; exact .mark (fun _ => rfl) (spells_fieldTokens ih true)

/-! ### Reading the tokens of a value -/

/-- A value is read from its tokens, whatever follows, with two calls for each token. -/
def Parses (v : Value) : Prop :=
  ∀ fuel rest, 2 * (tokensOf v).length ≤ fuel → valueAt fuel (tokensOf v ++ rest) = some (reread v, rest)

theorem tokensOf_head (v : Value) : ∃ t ts, tokensOf v = t :: ts ∧ t ≠ .closeList := by
  match v with
  | .number n =>
    rw [tokensOf]
    refine ⟨_, _, rfl, ?_⟩
    cases n <;> nofun
  | .absent | .null | .bool _ | .text _ | .list [] | .list (_ :: _) | .mapping _ | .derived _ _ =>
    rw [tokensOf]
    exact ⟨_, _, rfl, nofun⟩

theorem itemsAt_itemTokens {v : Value} {vs : List Value} (each : ∀ w ∈ v :: vs, Parses w) (fuel : Nat) (rest : List Token)
    (enough : 2 * (tokensOf v ++ itemTokens vs).length ≤ fuel) :
    itemsAt fuel (tokensOf v ++ itemTokens vs ++ rest) = some (reread v :: rereadItems vs, rest) := by
  induction vs generalizing v fuel with
  | nil =>
    rw [itemTokens, List.length_append, List.length_singleton] at enough
    obtain ⟨fuel, rfl⟩ : ∃ n, fuel = n + 1 := ⟨fuel - 1, by omega⟩
    rw [itemTokens, List.append_assoc, itemsAt, each v List.mem_cons_self fuel _ (by omega), rereadItems]
    rfl
  | cons w vs ih =>
    rw [itemTokens, List.cons_append, List.length_append, List.length_cons] at enough
    obtain ⟨fuel, rfl⟩ : ∃ n, fuel = n + 1 := ⟨fuel - 1, by omega⟩
    rw [itemTokens, List.append_assoc, itemsAt, each v List.mem_cons_self fuel _ (by omega), rereadItems]
    have others := ih (fun w member => each w (List.mem_cons_of_mem _ member)) fuel (by omega)
    simp only [List.cons_append, others, Option.map_some]

/-- Either no field is present, or the fields after others begin as on their own, after a comma. -/
theorem fieldTokens_cases (fields : List (String × Value)) :
    (rereadFields fields = [] ∧ ∀ first, fieldTokens first fields = [.closeMapping]) ∨
      (fieldTokens false fields = .comma :: fieldTokens true fields ∧ rereadFields fields ≠ [] ∧
        ∃ key more, fieldTokens true fields = .text key :: more) := by
  induction fields with
  | nil =>
    refine Or.inl ⟨by rw [rereadFields], fun first => ?_⟩
    rw [fieldTokens]
  | cons e rest ih =>
    obtain ⟨k, v⟩ := e
    by_cases absent : v = .absent
    · subst absent
      simpa only [rereadFields, fieldTokens] using ih
    · right
      rw [fieldTokens_present absent, fieldTokens_present absent, rereadFields_present absent]
      simp

theorem fieldsAt_fieldTokens {fields : List (String × Value)} (each : ∀ e ∈ fields, Parses e.2)
    (some_ : rereadFields fields ≠ []) (fuel : Nat) (rest : List Token) (enough : 2 * (fieldTokens true fields).length ≤ fuel) :
    fieldsAt fuel (fieldTokens true fields ++ rest) = some (rereadFields fields, rest) := by
  induction fields generalizing fuel with
  | nil => rw [rereadFields] at some_; exact absurd rfl some_
  | cons e fields ih =>
    obtain ⟨k, v⟩ := e
    have others : ∀ e ∈ fields, Parses e.2 := fun e member => each e (List.mem_cons_of_mem _ member)
    by_cases absent : v = .absent
    · subst absent
      rw [rereadFields] at some_ ⊢
      rw [fieldTokens] at enough ⊢
      exact ih others some_ fuel enough
    · rw [fieldTokens_present absent, if_pos rfl, List.nil_append, List.cons_append, List.cons_append, List.length_cons,
        List.length_cons, List.length_append] at enough
      obtain ⟨fuel, rfl⟩ : ∃ n, fuel = n + 1 := ⟨fuel - 1, by omega⟩
      rw [fieldTokens_present absent, if_pos rfl, List.nil_append, rereadFields_present absent]
      simp only [List.cons_append, List.append_assoc]
      have value : Parses v := each (k, v) List.mem_cons_self
      rw [fieldsAt, value fuel _ (by omega)]
      rcases fieldTokens_cases fields with ⟨none, close⟩ | ⟨comma, more, -⟩
      · rw [close, none]
        rfl
      · rw [comma] at enough ⊢
        rw [List.length_cons] at enough
        simp only [List.cons_append, ih others more fuel (by omega), Option.map_some]

theorem valueAt_list {items : List Value} (each : ∀ v ∈ items, Parses v) : Parses (.list items) := by
  intro fuel rest enough
  cases items with
  | nil =>
    rw [tokensOf, List.length_cons] at enough
    obtain ⟨fuel, rfl⟩ : ∃ n, fuel = n + 1 := ⟨fuel - 1, by omega⟩
    rw [tokensOf, reread, rereadItems]
    rfl
  | cons v vs =>
    rw [tokensOf, List.cons_append, List.length_cons] at enough
    obtain ⟨fuel, rfl⟩ : ∃ n, fuel = n + 1 := ⟨fuel - 1, by omega⟩
    have items := itemsAt_itemTokens each fuel rest (by omega)
    obtain ⟨t, ts, front, open_⟩ := tokensOf_head v
    rw [tokensOf, reread, rereadItems, List.cons_append, List.cons_append]
    rw [front] at items ⊢
    rw [List.cons_append, List.cons_append] at items ⊢
    rw [valueAt, items, Option.map_some]
    intro _ same
    exact open_ (List.cons.inj same).1

theorem valueAt_fields {fields : List (String × Value)} (each : ∀ e ∈ fields, Parses e.2) (fuel : Nat) (rest : List Token)
    (enough : 2 * (Token.openMapping :: fieldTokens true fields).length ≤ fuel) :
    valueAt fuel (.openMapping :: fieldTokens true fields ++ rest) = some (Value.ofEntries (rereadFields fields), rest) := by
  rw [List.length_cons] at enough
  obtain ⟨fuel, rfl⟩ : ∃ n, fuel = n + 1 := ⟨fuel - 1, by omega⟩
  rcases fieldTokens_cases fields with ⟨none, close⟩ | ⟨-, more, open_⟩
  · rw [close, none]
    rfl
  · have entries := fieldsAt_fieldTokens each more fuel rest (by omega)
    obtain ⟨key, tokens, front⟩ := open_
    rw [front] at entries ⊢
    rw [List.cons_append] at entries
    rw [List.cons_append, List.cons_append, valueAt, entries, Option.map_some]
    exact nofun

theorem valueAt_number (n : Decimal.Binary64) (fuel : Nat) (rest : List Token) :
    valueAt (fuel + 1) (numberToken n :: rest) = some (rereadNumber n, rest) := by
  cases n <;> rfl

theorem valueAt_tokensOf {v : Value} (legible : Legible v) : Parses v := by
  induction legible with
  | list _ ih => exact valueAt_list ih
  | mapping _ ih =>
    intro fuel rest enough
    rw [tokensOf] at enough ⊢
    rw [reread]
    exact valueAt_fields ih fuel rest enough
  | derived _ _ ih =>
    intro fuel rest enough
    rw [tokensOf] at enough ⊢
    rw [reread]
    exact valueAt_fields ih fuel rest enough
  | @number n _ =>
    intro fuel rest enough
    rw [tokensOf, List.length_singleton] at enough
    obtain ⟨fuel, rfl⟩ : ∃ n, fuel = n + 1 := ⟨fuel - 1, by omega⟩
    rw [tokensOf, reread]
    exact valueAt_number n fuel rest
  | _ =>
    intro fuel rest enough
    rw [tokensOf, List.length_singleton] at enough
    obtain ⟨fuel, rfl⟩ : ∃ n, fuel = n + 1 := ⟨fuel - 1, by omega⟩
    rw [tokensOf, reread]
    rfl

/-- A text that spells the tokens of a value is read as the value, with blanks behind it or none. -/
theorem read_of_spells {cs blanks : List Char} {v : Value} (legible : Legible v) (spells : Spells cs (tokensOf v))
    (spaces : ∀ c ∈ blanks, isSpace c = true) : read (String.ofList (cs ++ blanks)) = some (reread v) := by
  have parsed := valueAt_tokensOf legible (2 * (tokensOf v).length + 1) [] (by omega)
  rw [List.append_nil] at parsed
  rw [read, String.toList_ofList, spells.tokens_eq spaces]
  simp only [parsed]

/-- What was written is read back, but for what JSON cannot tell apart. -/
theorem read_compact {v : Value} (legible : Legible v) : read (compact v) = some (reread v) := by
  have text := read_of_spells legible (spells_tokensOf legible) (List.forall_mem_nil _)
  rwa [List.append_nil] at text

/-! ### Fields of what is read -/

theorem keys_rereadFields (fields : List (String × Value)) : ((rereadFields fields).map Prod.fst).Sublist (fields.map Prod.fst) := by
  induction fields with
  | nil => rw [rereadFields]
  | cons e rest ih =>
    obtain ⟨k, v⟩ := e
    by_cases absent : v = .absent
    · subst absent
      rw [rereadFields]
      exact ih.cons k
    · rw [rereadFields_present absent]
      exact ih.cons_cons k

/-- A mapping whose keys are no indices keeps its order. -/
theorem reread_mapping {fields : List (String × Value)} (named : ∀ k ∈ fields.map Prod.fst, arrayIndex? k = none)
    (distinct : (fields.map Prod.fst).Nodup) : reread (.mapping fields) = .mapping (rereadFields fields) := by
  have keys := keys_rereadFields fields
  rw [reread, Value.ofEntries,
    arrangeFields_named (fun e member => named _ (keys.subset (List.mem_map_of_mem member))) (distinct.sublist keys)]

/-- What is read for a field: nothing where it was absent. -/
def rereadField : Value → Value
  | .absent => .absent
  | v => reread v

theorem field_rereadFields {fields : List (String × Value)} (distinct : (fields.map Prod.fst).Nodup) (key : String) :
    Value.field (rereadFields fields) key = rereadField (Value.field fields key) := by
  unfold Value.field
  induction fields with
  | nil => rw [rereadFields]; rfl
  | cons e rest ih =>
    obtain ⟨k, v⟩ := e
    rw [List.map_cons, List.nodup_cons] at distinct
    by_cases same : key = k
    · subst same
      rw [List.lookup_cons_self, Option.getD_some]
      by_cases absent : v = .absent
      · subst absent
        have last : (rereadFields rest).lookup key = none :=
          lookup_eq_none_of_not_mem fun later => distinct.1 ((keys_rereadFields rest).subset later)
        rw [rereadFields, last]
        rfl
      · rw [rereadFields_present absent, List.lookup_cons_self, Option.getD_some, rereadField]
        exact absent
    · have other : (key == k) = false := by simpa using same
      rw [List.lookup_cons, other]
      by_cases absent : v = .absent
      · subst absent
        rw [rereadFields]
        exact ih distinct.2
      · rw [rereadFields_present absent, List.lookup_cons, other]
        exact ih distinct.2

end WorkflowCompiler.Json
