import WorkflowCompiler.Json.Token
import WorkflowCompiler.Json.Writer
import WorkflowCompiler.Proofs.Decimal.Shortest

/-!
The text of a number is read as the number (`token_numberText`). It has the digits of the
shortest decimal, which rounds to the number, in one of four layouts (`text_parts`), and
every layout is read as a decimal of the same value (`unsigned_chars`).
-/
namespace WorkflowCompiler.Json
open Decimal

/-- No number goes on with a text. -/
def Ends (cs : List Char) : Prop := ∀ c ∈ cs.head?, c.isDigit = false ∧ c ≠ '.' ∧ c ≠ 'e' ∧ c ≠ 'E'

theorem ends_nil : Ends [] := nofun

theorem ends_cons {c : Char} (mark : c.isDigit = false ∧ c ≠ '.' ∧ c ≠ 'e' ∧ c ≠ 'E') (cs : List Char) : Ends (c :: cs) := by
  intro d first
  cases first
  exact mark

/-! ### Digits -/

theorem digitChar_isDigit : ∀ d < 10, (digitChar d).isDigit = true := by decide

theorem digitChar_toNat : ∀ d < 10, (digitChar d).toNat - 48 = d := by decide

theorem digitChar_eq_zero : ∀ d < 10, digitChar d = '0' → d = 0 := by decide

theorem span_digits {cs rest : List Char} (each : ∀ c ∈ cs, c.isDigit = true) (ends : ∀ c ∈ rest.head?, c.isDigit = false) :
    (cs ++ rest).span Char.isDigit = (cs, rest) := by
  have none : rest.takeWhile Char.isDigit = [] ∧ rest.dropWhile Char.isDigit = rest := by
    cases rest with
    | nil => exact ⟨rfl, rfl⟩
    | cons c rest =>
      have other := ends c rfl
      exact ⟨List.takeWhile_cons_of_neg (by simp [other]), List.dropWhile_cons_of_neg (by simp [other])⟩
  rw [List.span_eq_takeWhile_dropWhile, List.takeWhile_append_of_pos each, List.dropWhile_append_of_pos each, none.1, none.2,
    List.append_nil]

theorem someDigits_digits {ds : List ℕ} (each : ∀ d ∈ ds, d < 10) (some_ : ds ≠ []) {rest : List Char}
    (ends : ∀ c ∈ rest.head?, c.isDigit = false) : someDigits (ds.map digitChar ++ rest) = some (ds.map digitChar, rest) := by
  have digits : ∀ c ∈ ds.map digitChar, c.isDigit = true := by
    intro c member
    obtain ⟨d, among, rfl⟩ := List.mem_map.mp member
    exact digitChar_isDigit d (each d among)
  rw [someDigits, span_digits digits ends]
  cases ds with
  | nil => exact absurd rfl some_
  | cons d ds => rfl

theorem digitsValue_digits {ds : List ℕ} (each : ∀ d ∈ ds, d < 10) : digitsValue (ds.map digitChar) = numeral ds := by
  induction ds using List.reverseRecOn with
  | nil => rfl
  | append_singleton ds d ih =>
    rw [List.forall_mem_append, List.forall_mem_singleton] at each
    have front := ih each.1
    rw [digitsValue] at front ⊢
    rw [List.map_append, List.foldl_append, front, numeral_append]
    simp [digitChar_toNat d each.2, numeral]
    ring

/-! ### The parts of a number -/

/-- A number text in its parts: the digits before the point, those after it, and the exponent. -/
structure Parts where
  whole : List ℕ
  places : List ℕ := []
  exponent : Option ℤ := none

namespace Parts

/-- The digits after the point, with the point if there are any. -/
def fraction : List ℕ → List Char
  | [] => []
  | ds => '.' :: ds.map digitChar

/-- The exponent, with its mark. -/
def mark : Option ℤ → List Char
  | none => []
  | some e => 'e' :: (if e < 0 then '-' else '+') :: (natText e.natAbs).toList

def chars (p : Parts) : List Char := p.whole.map digitChar ++ fraction p.places ++ mark p.exponent

/-- What the parts stand for. -/
def value (p : Parts) : ℚ := numeral (p.whole ++ p.places) * 10 ^ (p.exponent.getD 0 - p.places.length)

/-- The parts of a number: before the point no leading zero, but for a single one. -/
structure Regular (p : Parts) : Prop where
  whole : Numeric p.whole ∨ p.whole = [0]
  places : ∀ d ∈ p.places, d < 10

end Parts

theorem natText_digits (n : ℕ) : ∃ ds, (natText n).toList = ds.map digitChar ∧ (∀ d ∈ ds, d < 10) ∧ ds ≠ [] ∧ numeral ds = n := by
  by_cases zero : n = 0
  · subst zero
    exact ⟨[0], rfl, by decide, by decide, rfl⟩
  · have numeric := numeric_decimalDigits (Nat.pos_of_ne_zero zero)
    refine ⟨decimalDigits n, ?_, numeric.each, numeric.nonempty, numeral_decimalDigits n⟩
    rw [natText, if_neg zero, digitText, String.toList_ofList]

theorem exponentPart_mark (e : Option ℤ) {rest : List Char} (ends : Ends rest) :
    exponentPart (Parts.mark e ++ rest) = some (e.getD 0, rest) := by
  cases e with
  | none =>
    rw [Parts.mark, List.nil_append]
    cases rest with
    | nil => rfl
    | cons c rest =>
      obtain ⟨-, -, small, large⟩ := ends c rfl
      exact if_neg (by simp [small, large])
  | some e =>
    obtain ⟨ds, text, each, some_, value⟩ := natText_digits e.natAbs
    have digits : someDigits (ds.map digitChar ++ rest) = some (ds.map digitChar, rest) :=
      someDigits_digits each some_ fun c first => (ends c first).1
    have down : exponentPart ('e' :: '-' :: (ds.map digitChar ++ rest)) =
        (someDigits (ds.map digitChar ++ rest)).map fun r => (-(digitsValue r.1 : ℤ), r.2) := rfl
    have up : exponentPart ('e' :: '+' :: (ds.map digitChar ++ rest)) =
        (someDigits (ds.map digitChar ++ rest)).map fun r => ((digitsValue r.1 : ℤ), r.2) := rfl
    rw [Parts.mark, text, List.cons_append, List.cons_append, Option.getD_some]
    by_cases negative : e < 0
    · rw [if_pos negative, down, digits, Option.map_some, digitsValue_digits each, value]
      congr 2
      omega
    · rw [if_neg negative, up, digits, Option.map_some, digitsValue_digits each, value]
      congr 2
      omega

theorem head?_mark (e : Option ℤ) {rest : List Char} (ends : Ends rest) :
    ∀ c ∈ (Parts.mark e ++ rest).head?, c.isDigit = false ∧ c ≠ '.' := by
  cases e with
  | none => exact fun c first => ⟨(ends c first).1, (ends c first).2.1⟩
  | some e =>
    intro c first
    cases first
    decide

theorem fractionDigits_fraction {ds : List ℕ} (each : ∀ d ∈ ds, d < 10) {rest : List Char}
    (ends : ∀ c ∈ rest.head?, c.isDigit = false ∧ c ≠ '.') :
    fractionDigits (Parts.fraction ds ++ rest) = some (ds.map digitChar, rest) := by
  cases ds with
  | nil =>
    rw [Parts.fraction, List.nil_append]
    cases rest with
    | nil => rfl
    | cons c rest =>
      have other := (ends c rfl).2
      rw [fractionDigits]
      · rfl
      · rintro more ⟨⟩
        exact other rfl
  | cons d ds => exact someDigits_digits each (List.cons_ne_nil d ds) fun c first => (ends c first).1

theorem integerDigits_whole {ds : List ℕ} (whole : Numeric ds ∨ ds = [0]) {rest : List Char}
    (ends : ∀ c ∈ rest.head?, c.isDigit = false) : integerDigits (ds.map digitChar ++ rest) = some (ds.map digitChar, rest) := by
  rcases whole with numeric | rfl
  · obtain ⟨each, leading, some_⟩ := numeric
    have digits := someDigits_digits each some_ ends
    cases ds with
    | nil => exact absurd rfl some_
    | cons d ds =>
      rw [← digits, List.map_cons, List.cons_append, integerDigits]
      rintro more front
      exact leading d rfl (digitChar_eq_zero d (each d List.mem_cons_self) (List.cons.inj front).1)
  · rfl

theorem Parts.Regular.each {p : Parts} (regular : p.Regular) : ∀ d ∈ p.whole ++ p.places, d < 10 := by
  refine List.forall_mem_append.mpr ⟨?_, regular.places⟩
  rcases regular.whole with numeric | zero
  · exact numeric.each
  · rw [zero]
    decide

/-- A number text is read in its parts. -/
theorem unsigned_chars (negative : Bool) {p : Parts} (regular : p.Regular) {rest : List Char} (ends : Ends rest) :
    unsigned negative (p.chars ++ rest) =
      some (Binary64.ofDecimal negative (numeral (p.whole ++ p.places)) (p.whole ++ p.places).length
        (p.exponent.getD 0 - p.places.length), rest) := by
  have after := head?_mark p.exponent ends
  have between : ∀ c ∈ (Parts.fraction p.places ++ (Parts.mark p.exponent ++ rest)).head?, c.isDigit = false := by
    cases p.places with
    | nil => exact fun c first => (after c first).1
    | cons d ds =>
      intro c first
      cases first
      decide
  rw [unsigned, Parts.chars, List.append_assoc, List.append_assoc, integerDigits_whole regular.whole between]
  simp only [Option.bind_eq_bind, Option.bind_some, fractionDigits_fraction regular.places after, exponentPart_mark _ ends]
  rw [← List.map_append, digitsValue_digits regular.each, List.length_map,
    List.length_map]
  rfl

/-! ### The layouts of a decimal -/

theorem Parts.fraction_of_ne_nil {ds : List ℕ} (some_ : ds ≠ []) : Parts.fraction ds = '.' :: ds.map digitChar := by
  cases ds with
  | nil => exact absurd rfl some_
  | cons d ds => rfl

theorem digitChar_zeros (z : ℕ) : (List.replicate z 0).map digitChar = List.replicate z '0' := by
  rw [List.map_replicate]
  rfl

/-- The parts of a decimal by the place of its point. -/
def partsOf (d : Digits) : Parts :=
  if d.point ≤ plain.leastPoint ∨ plain.greatestPoint < d.point then
    { whole := d.digits.take 1, places := d.digits.drop 1, exponent := some (d.point - 1) }
  else if d.point ≤ 0 then { whole := [0], places := List.replicate d.point.natAbs 0 ++ d.digits }
  else if d.digits.length ≤ d.point.natAbs then
    { whole := d.digits ++ List.replicate (d.point.natAbs - d.digits.length) 0 }
  else { whole := d.digits.take d.point.natAbs, places := d.digits.drop d.point.natAbs }

theorem chars_partsOf {d : Digits} (some_ : d.digits ≠ []) : (partsOf d).chars = (d.text plain).toList := by
  rw [partsOf, Digits.text]
  simp only
  split_ifs with far below zero short
  · cases d.digits.drop 1 <;> simp [Parts.chars, Parts.mark, Parts.fraction, digitText, plain, below]
  · cases d.digits.drop 1 <;> simp [Parts.chars, Parts.mark, Parts.fraction, digitText, plain, below]
  · have places : List.replicate d.point.natAbs 0 ++ d.digits ≠ [] := by simp [some_]
    rw [Parts.chars, Parts.fraction_of_ne_nil places, List.map_append, digitChar_zeros]
    simp [Parts.mark, digitText, digitChar]
  · rw [Parts.chars, List.map_append, digitChar_zeros]
    simp [Parts.mark, Parts.fraction, digitText]
  · have places : d.digits.drop d.point.natAbs ≠ [] := by
      rw [Ne, List.drop_eq_nil_iff]
      exact short
    rw [Parts.chars, Parts.fraction_of_ne_nil places]
    simp [Parts.mark, digitText]

theorem regular_partsOf {d : Digits} (numeric : Numeric d.digits) : (partsOf d).Regular := by
  have dropped (k : ℕ) : ∀ x ∈ d.digits.drop k, x < 10 := fun x member => numeric.each x (List.mem_of_mem_drop member)
  rw [partsOf]
  split_ifs with far negative short
  · exact ⟨.inl (numeric.take (by decide)), dropped 1⟩
  · refine ⟨.inr rfl, List.forall_mem_append.mpr ⟨fun x member => ?_, numeric.each⟩⟩
    rw [List.eq_of_mem_replicate member]
    decide
  · exact ⟨.inl (numeric.append_zeros _), List.forall_mem_nil _⟩
  · exact ⟨.inl (numeric.take (by omega)), dropped _⟩

theorem value_partsOf {d : Digits} (some_ : d.digits ≠ []) : (partsOf d).value = d.value := by
  have length := List.length_pos_of_ne_nil some_
  rw [partsOf, Digits.value, Parts.value]
  split_ifs with far negative short
  · rw [List.take_append_drop, List.length_drop, Option.getD_some]
    congr 2
    omega
  · rw [numeral_append, numeral_append, numeral_zeros, List.length_append, List.length_replicate, Option.getD_none]
    congr 2
    · simp [numeral]
    · omega
  · rw [List.append_nil, numeral_append, numeral_zeros, List.length_replicate, List.length_nil, Option.getD_none]
    have power : (10 : ℚ) ^ (d.point - d.digits.length) = 10 ^ (d.point.natAbs - d.digits.length) := by
      rw [← zpow_natCast]
      congr 1
      omega
    rw [power]
    push_cast
    simp
  · rw [List.take_append_drop, List.length_drop, Option.getD_none]
    congr 2
    omega

/-! ### Numbers -/

theorem token_digit (cs : List Char) : ∀ d < 10, token (digitChar d :: cs) =
    (unsigned false (digitChar d :: cs)).map fun r => (.number r.1, r.2) := by
  intro d small
  interval_cases d <;> rfl

theorem Parts.Regular.front {p : Parts} (regular : p.Regular) : ∃ d < 10, ∃ cs, p.chars = digitChar d :: cs := by
  have each := regular.each
  have some_ : p.whole ≠ [] := by
    rcases regular.whole with numeric | zero
    · exact numeric.nonempty
    · simp [zero]
  rw [Parts.chars]
  cases whole : p.whole with
  | nil => exact absurd whole some_
  | cons d ds => exact ⟨d, each d (by simp [whole]), _, rfl⟩

/-- A number text is one token, with or without a sign. -/
theorem token_chars (negative : Bool) {p : Parts} (regular : p.Regular) {rest : List Char} (ends : Ends rest) :
    token ((if negative then "-" else "").toList ++ p.chars ++ rest) =
      some (.number (Binary64.ofDecimal negative (numeral (p.whole ++ p.places)) (p.whole ++ p.places).length
        (p.exponent.getD 0 - p.places.length)), rest) := by
  have reads := unsigned_chars negative regular ends
  cases negative with
  | true => exact congrArg (Option.map _) reads
  | false =>
    obtain ⟨d, small, cs, front⟩ := regular.front
    rw [front, List.cons_append] at reads
    rw [front, if_neg Bool.false_ne_true, String.toList_empty, List.nil_append, List.cons_append, token_digit _ d small, reads]
    rfl

/-- The token that the text of a number is. -/
def numberToken : Binary64 → Token
  | .finite s m q => .number (.finite s m q)
  | _ => .null

/-- The text of a number is read as the number, and as nothing if that is not finite. -/
theorem token_numberText {n : Binary64} (canonical : n.Canonical) {rest : List Char} (ends : Ends rest) :
    token ((numberText n).toList ++ rest) = some (numberToken n, rest) := by
  cases canonical with
  | nan => rfl
  | infinite negative => cases negative <;> rfl
  | zero => exact token_chars false (p := { whole := [0] }) ⟨.inr rfl, List.forall_mem_nil _⟩ ends
  | @proper negative m q proper =>
    have positive := proper.positive
    obtain ⟨numeric, rounds⟩ := shortest_roundsTo proper
    have regular := regular_partsOf numeric
    rw [← value_partsOf numeric.nonempty] at rounds
    rw [numberText, Binary64.text, if_neg positive.ne', String.toList_append, ← chars_partsOf numeric.nonempty,
      token_chars negative regular ends, Binary64.ofDecimal_of_roundsTo negative (numeral_lt regular.each) proper rounds,
      numberToken]

end WorkflowCompiler.Json
