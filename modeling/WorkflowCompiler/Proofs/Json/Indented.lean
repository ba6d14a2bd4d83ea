import WorkflowCompiler.Proofs.Json.RoundTrip

/-!
The layout over several lines spells the tokens of a value as the one on one line does:
the line breaks, the indents and the blanks after colons are no tokens. So it is read back
in the same way, also with a line break behind it (`read_indented`).
-/
namespace WorkflowCompiler.Json

theorem isSpace_lineStart (depth : Nat) : ∀ c ∈ lineStart depth, isSpace c = true := by
  rw [lineStart, List.forall_mem_cons]
  refine ⟨by decide, fun c member => ?_⟩
  rw [List.eq_of_mem_replicate member]
  decide

theorem isPresent_iff {e : String × Value} : isPresent e = true ↔ e.2 ≠ .absent := by
  obtain ⟨k, v⟩ := e
  cases v <;> simp [isPresent]

theorem indentedFields_present {v : Value} (present : v ≠ .absent) (depth : Nat) (first : Bool) (k : String)
    (rest : List (String × Value)) :
    indentedFields depth first ((k, v) :: rest) =
      (if first then [] else [',']) ++ lineStart (depth + 1) ++ quoted k ++ ':' :: ' ' ::
        indentedChars (depth + 1) v ++ indentedFields depth false rest := by
  rw [indentedFields]
  exact present

theorem ends_indentedItems (depth : Nat) (vs : List Value) (rest : List Char) : Ends (indentedItems depth vs ++ rest) := by
  cases vs <;> (rw [indentedItems]; exact ends_cons (by decide) _)

theorem ends_indentedFields (depth : Nat) (fields : List (String × Value)) (rest : List Char) :
    Ends (indentedFields depth false fields ++ rest) := by
  induction fields with
  | nil => rw [indentedFields]; exact ends_cons (by decide) _
  | cons e others ih =>
    obtain ⟨k, v⟩ := e
    by_cases absent : v = .absent
    · subst absent
      rwa [indentedFields]
    · rw [indentedFields_present absent]
      exact ends_cons (by decide) _

theorem tokensOf_ne_nil (v : Value) : tokensOf v ≠ [] := by
  obtain ⟨t, ts, front, -⟩ := tokensOf_head v
  rw [front]
  exact List.cons_ne_nil t ts

/-- A value at a depth, on a line of its own, and what comes after it. -/
theorem spells_line {v : Value} (depth : Nat) {a : List Char} {s : List Token}
    (value : Spells (indentedChars depth v) (tokensOf v)) (rest : Spells a s) (ends : ∀ after, Ends (a ++ after)) :
    Spells (lineStart depth ++ (indentedChars depth v ++ a)) (tokensOf v ++ s) :=
  .blanks (isSpace_lineStart depth) (by simp [tokensOf_ne_nil]) (value.append rest fun after _ => ends after)

theorem spells_indentedItems {vs : List Value} (depth : Nat)
    (each : ∀ v ∈ vs, Spells (indentedChars (depth + 1) v) (tokensOf v)) : Spells (indentedItems depth vs) (itemTokens vs) := by
  induction vs with
  | nil =>
    rw [indentedItems, itemTokens]
    exact .blanks (isSpace_lineStart depth) (List.cons_ne_nil _ _) (.mark (fun _ => rfl) .nil)
  | cons v vs ih =>
    rw [indentedItems, itemTokens, List.cons_append, List.cons_append, List.append_assoc]
    have rest := ih fun v member => each v (List.mem_cons_of_mem _ member)
    exact .mark (fun _ => rfl) (spells_line _ (each v List.mem_cons_self) rest (ends_indentedItems depth vs))

theorem spells_indentedFields {fields : List (String × Value)} (depth : Nat)
    (each : ∀ e ∈ fields, Spells (indentedChars (depth + 1) e.2) (tokensOf e.2)) (first : Bool) :
    Spells (indentedFields depth first fields) (fieldTokens first fields) := by
  induction fields generalizing first with
  | nil =>
    rw [indentedFields, fieldTokens]
    exact .blanks (isSpace_lineStart depth) (List.cons_ne_nil _ _) (.mark (fun _ => rfl) .nil)
  | cons e rest ih =>
    obtain ⟨k, v⟩ := e
    have others := ih fun e member => each e (List.mem_cons_of_mem _ member)
    by_cases absent : v = .absent
    · subst absent
      rw [indentedFields, fieldTokens]
      exact others first
    · have value : Spells (' ' :: (indentedChars (depth + 1) v ++ indentedFields depth false rest))
          (tokensOf v ++ fieldTokens false rest) :=
        .blanks (c := [' ']) (List.forall_mem_singleton.mpr rfl) (by simp [tokensOf_ne_nil])
          ((each (k, v) List.mem_cons_self).append (others false) fun _ _ => ends_indentedFields depth rest _)
      have entry := (Spells.text k (.mark (c := ':') (u := .colon) (fun _ => rfl) value)).blanks
        (isSpace_lineStart (depth + 1)) (List.cons_ne_nil _ _)
      rw [indentedFields_present absent, fieldTokens_present absent]
      simp only [List.append_assoc, List.cons_append]
      cases first with
      | true => exact entry
      | false => exact .mark (c := ',') (fun _ => rfl) entry

theorem fieldTokens_none {fields : List (String × Value)} (none : fields.any isPresent = false) (first : Bool) :
    fieldTokens first fields = [.closeMapping] := by
  induction fields with
  | nil => rw [fieldTokens]
  | cons e rest ih =>
    obtain ⟨k, v⟩ := e
    rw [List.any_cons, Bool.or_eq_false_iff, ← Bool.not_eq_true, isPresent_iff, not_not] at none
    obtain ⟨rfl, others⟩ := none
    rw [fieldTokens]
    exact ih others

theorem spells_indentedMapping {fields : List (String × Value)} (depth : Nat)
    (each : ∀ e ∈ fields, Spells (indentedChars (depth + 1) e.2) (tokensOf e.2)) :
    Spells (if fields.any isPresent then '{' :: indentedFields depth true fields else ['{', '}'])
      (.openMapping :: fieldTokens true fields) := by
  split
  case isTrue => exact .mark (fun _ => rfl) (spells_indentedFields depth each true)
  case isFalse none =>
    rw [fieldTokens_none (Bool.not_eq_true _ ▸ none)]
    exact .mark (fun _ => rfl) (.mark (fun _ => rfl) .nil)

theorem spells_indented {v : Value} (legible : Legible v) (depth : Nat) : Spells (indentedChars depth v) (tokensOf v) := by
  induction legible generalizing depth with
  | absent => rw [indentedChars, tokensOf]; exact .one fun _ _ => rfl
  | null => rw [indentedChars, tokensOf]; exact .one fun _ _ => rfl
  | bool b => rw [indentedChars]; exact spells_tokensOf (.bool b)
  | number canonical => rw [indentedChars]; exact spells_tokensOf (.number canonical)
  | text s => rw [indentedChars]; exact spells_tokensOf (.text s)
  | @list items _ ih =>
    cases items with
    | nil =>
      rw [indentedChars, tokensOf]
      exact .mark (fun _ => rfl) (.mark (fun _ => rfl) .nil)
    | cons v vs =>
      rw [indentedChars, tokensOf, List.cons_append, List.cons_append, List.append_assoc]
      have rest := spells_indentedItems depth fun v member => ih v (List.mem_cons_of_mem _ member) (depth + 1)
      exact .mark (fun _ => rfl) (spells_line _ (ih v List.mem_cons_self _) rest (ends_indentedItems depth vs))
  | mapping _ ih => rw [indentedChars, tokensOf]; exact spells_indentedMapping depth fun e member => ih e member (depth + 1)
  | derived _ _ ih => rw [indentedChars, tokensOf]; exact spells_indentedMapping depth fun e member => ih e member (depth + 1)

/-- A value over several lines is read back, also with a line break behind it. -/
theorem read_indented {v : Value} (legible : Legible v) : read (indented v ++ "\n") = some (reread v) := by
  have text := read_of_spells (v := v) legible (spells_indented legible 0) (List.forall_mem_singleton.mpr (rfl : isSpace '\n' = true))
  rwa [String.ofList_append] at text

end WorkflowCompiler.Json
