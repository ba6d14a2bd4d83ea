import WorkflowCompiler.Codec.Deflate
import WorkflowCompiler.Proofs.Arrays

/-!
Tokens stand for the bytes that they were made of (`expands_tokensOf`). Every copy is of
a length and a distance that can be written, and what it repeats was compared with what
it stands for: a candidate is an earlier place (`candidates_earlier`), and as much of it
is taken as is the same at the place of the copy (`Shares`).
-/
namespace WorkflowCompiler.Codec

/-- A copy of a length and from a distance that can be written. -/
def Token.Valid : Token → Prop
  | .literal _ => True
  | .copy length distance => (3 ≤ length ∧ length ≤ 258) ∧ 1 ≤ distance ∧ distance ≤ 32768

/-- Tokens turn output, in reverse order, into longer output. -/
inductive Expands : List UInt8 → List Token → List UInt8 → Prop
  | done {out : List UInt8} : Expands out [] out
  | literal {out final : List UInt8} {b : UInt8} {rest : List Token} (onward : Expands (b :: out) rest final) :
      Expands out (.literal b :: rest) final
  | copy {out longer final : List UInt8} {length distance : Nat} {rest : List Token} (valid : (Token.copy length distance).Valid)
      (repeats : repeatOutput distance length out = some longer) (onward : Expands longer rest final) :
      Expands out (.copy length distance :: rest) final

section
variable {out mid final : List UInt8} {tokens front rest : List Token}

theorem Expands.append (first : Expands out front mid) (onward : Expands mid rest final) : Expands out (front ++ rest) final := by
  induction first with
  | done => exact onward
  | literal _ ih => exact .literal (ih onward)
  | copy valid repeats _ ih => exact .copy valid repeats (ih onward)

theorem Expands.split (expands : Expands out (front ++ rest) final) : ∃ mid, Expands out front mid ∧ Expands mid rest final := by
  induction front generalizing out with
  | nil => exact ⟨out, .done, expands⟩
  | cons t front ih =>
    cases expands with
    | literal onward =>
      obtain ⟨mid, here, later⟩ := ih onward
      exact ⟨mid, .literal here, later⟩
    | copy valid repeats onward =>
      obtain ⟨mid, here, later⟩ := ih onward
      exact ⟨mid, .copy valid repeats here, later⟩

theorem repeatOutput_adds {distance count : Nat} {longer : List UInt8} (repeats : repeatOutput distance count out = some longer) :
    ∃ added : List UInt8, added.length = count ∧ longer = added ++ out := by
  induction count generalizing out with
  | zero =>
    cases repeats
    exact ⟨[], rfl, rfl⟩
  | succ count ih =>
    rw [repeatOutput] at repeats
    split at repeats
    · cases repeats
    · rename_i b _
      obtain ⟨added, many, same⟩ := ih repeats
      refine ⟨added ++ [b], ?_, ?_⟩
      · rw [List.length_append, many, List.length_singleton]
      · rw [same, List.append_assoc, List.singleton_append]

/-- Output only grows, by as much as the tokens say. -/
theorem Expands.adds (expands : Expands out tokens final) :
    ∃ added : List UInt8, added.length = tokens.foldr (fun t n => t.size + n) 0 ∧ final = added ++ out := by
  induction expands with
  | done => exact ⟨[], rfl, rfl⟩
  | @literal out final b rest _ ih =>
    obtain ⟨added, many, same⟩ := ih
    refine ⟨added ++ [b], ?_, ?_⟩
    · rw [List.length_append, many, List.length_singleton, List.foldr_cons, Token.size, Nat.add_comm]
    · rw [same, List.append_assoc, List.singleton_append]
  | copy _ repeats _ ih =>
    obtain ⟨more, count, longer⟩ := repeatOutput_adds repeats
    obtain ⟨added, many, same⟩ := ih
    refine ⟨added ++ more, ?_, ?_⟩
    · rw [List.length_append, many, count, List.foldr_cons, Token.size, Nat.add_comm]
    · rw [same, longer, List.append_assoc]

end

namespace Repetition
variable {bytes : Array UInt8} {before : Array Nat} {place : Nat} {known : Nat × Nat}

/-! ### Places -/

/-- The output once the bytes before a place are written. -/
def written (bytes : Array UInt8) (place : Nat) : List UInt8 := (bytes.toList.take place).reverse

theorem written_succ {b : UInt8} (here : bytes[place]? = some b) : written bytes (place + 1) = b :: written bytes place := by
  obtain ⟨inside, rfl⟩ := Array.getElem?_eq_some_iff.mp here
  rw [written, written, List.take_succ_eq_append_getElem (by simpa using inside), List.reverse_append, List.reverse_singleton,
    List.singleton_append, Array.getElem_toList]

theorem getElem?_written {source : Nat} (earlier : source < place) (within : place ≤ bytes.size) :
    (written bytes place)[place - source - 1]? = bytes[source]? := by
  have whole : (bytes.toList.take place).length = place := by
    rw [List.length_take, Array.length_toList]
    omega
  rw [written, List.getElem?_reverse (by omega), whole, List.getElem?_take_of_lt (by omega), Array.getElem?_toList]
  congr 1
  omega

/-- A match of a length from an earlier place: both places have the same bytes. -/
structure Shares (bytes : Array UInt8) (place : Nat) (found : Nat × Nat) : Prop where
  earlier : found.2 < place
  near : place - found.2 ≤ mostDistance
  most : found.1 ≤ mostLength
  same : ∀ i < found.1, ∃ b, bytes[found.2 + i]? = some b ∧ bytes[place + i]? = some b

theorem repeatOutput_written {source count : Nat} (earlier : source < place)
    (same : ∀ i < count, ∃ b, bytes[source + i]? = some b ∧ bytes[place + i]? = some b) (within : place ≤ bytes.size) :
    repeatOutput (place - source) count (written bytes place) = some (written bytes (place + count)) := by
  induction count generalizing source place with
  | zero => rfl
  | succ count ih =>
    obtain ⟨b, there, here⟩ := same 0 (Nat.succ_pos _)
    rw [Nat.add_zero] at there here
    have inside := (Array.getElem?_eq_some_iff.mp here).1
    have shifted : repeatOutput (place + 1 - (source + 1)) count (written bytes (place + 1)) =
        some (written bytes (place + 1 + count)) := by
      refine ih (Nat.succ_lt_succ earlier) (fun i few => ?_) inside
      rw [Nat.add_right_comm source, Nat.add_right_comm place]
      exact same (i + 1) (Nat.succ_lt_succ few)
    rw [Nat.add_sub_add_right, Nat.add_right_comm] at shifted
    rw [repeatOutput, getElem?_written earlier within, there]
    simp only [← written_succ here]
    exact shifted

/-! ### Matches -/

theorem sharedLength_le (bytes : Array UInt8) (a b limit : Nat) : sharedLength bytes a b limit ≤ limit := by
  induction limit generalizing a b with
  | zero => exact Nat.le_refl _
  | succ limit ih =>
    unfold sharedLength
    split
    · split
      · exact Nat.succ_le_succ (ih (a + 1) (b + 1))
      · exact Nat.zero_le _
    · exact Nat.zero_le _

theorem sharedLength_same {a b limit i : Nat} (few : i < sharedLength bytes a b limit) :
    ∃ x, bytes[a + i]? = some x ∧ bytes[b + i]? = some x := by
  induction limit generalizing a b i with
  | zero => exact absurd few (Nat.not_lt_zero i)
  | succ limit ih =>
    unfold sharedLength at few
    split at few
    · rename_i x y here there
      split at few
      · rename_i same
        cases i with
        | zero => exact ⟨x, here, same ▸ there⟩
        | succ i =>
          have next := ih (Nat.lt_of_succ_lt_succ few)
          rwa [Nat.add_right_comm a, Nat.add_right_comm b] at next
      · exact absurd few (Nat.not_lt_zero i)
    · exact absurd few (Nat.not_lt_zero i)

/-- Every place is connected with an earlier one, or with none. -/
def Earlier (before : Array Nat) : Prop := ∀ place, before.getD place 0 = 0 ∨ before.getD place 0 < place

/-- A search finds a match, unless what it finds is no better than what was known. -/
theorem search_shares (earlier : Earlier before) {budget candidate : Nat} {best : Nat × Nat} (first : candidate < place)
    (near : place - candidate ≤ mostDistance) {least : Nat} (better : best.1 ≤ least ∨ Shares bytes place best) :
    (search bytes before place budget candidate best).1 ≤ least ∨
      Shares bytes place (search bytes before place budget candidate best) := by
  induction budget generalizing candidate best with
  | zero => exact better
  | succ budget ih =>
    have found : Shares bytes place (sharedLength bytes candidate place mostLength, candidate) :=
      ⟨first, near, sharedLength_le .., fun i few => sharedLength_same few⟩
    have next : (if best.1 < sharedLength bytes candidate place mostLength then
          (sharedLength bytes candidate place mostLength, candidate) else best).1 ≤ least ∨
        Shares bytes place (if best.1 < sharedLength bytes candidate place mostLength then
          (sharedLength bytes candidate place mostLength, candidate) else best) := by
      split
      · exact .inr found
      · exact better
    simp only [search]
    split
    · exact next
    · split
      · rename_i within
        have back : before.getD candidate 0 < place := by
          rcases earlier candidate with none | lower
          · omega
          · omega
        exact ih back (by omega) next
      · exact next

/-- The match at a place is one, unless it is no better than the match one place before or too short for a copy. -/
theorem matchAt_shares (earlier : Earlier before) :
    (matchAt bytes before place known).1 ≤ max known.1 (leastLength - 1) ∨
      Shares bytes place (matchAt bytes before place known) := by
  simp only [matchAt]
  split
  · rename_i taken
    obtain ⟨some, _, near⟩ := taken
    have first : before.getD place 0 < place := (earlier place).resolve_left some
    split
    · exact .inl (Nat.le_max_right _ _)
    · exact search_shares earlier first near (.inl (Nat.le_max_left _ _))
  · exact .inl (Nat.le_max_right _ _)

/-! ### Candidates -/

/-- The next place, as `candidates` takes it. -/
def connect (bytes : Array UInt8) (s : Std.HashMap (List UInt8) Nat × Array Nat) (place : Nat) :
    Std.HashMap (List UInt8) Nat × Array Nat :=
  match keyAt? bytes place with
  | none => (s.1, s.2.push 0)
  | some key => (s.1.insert key place, s.2.push (s.1.getD key 0))

theorem candidates_eq (bytes : Array UInt8) : candidates bytes = ((List.range bytes.size).foldl (connect bytes) (∅, #[])).2 := rfl

theorem earlier_connect {s : Std.HashMap (List UInt8) Nat × Array Nat}
    (places : ∀ key, s.1.getD key 0 = 0 ∨ s.1.getD key 0 < s.2.size) (earlier : Earlier s.2) (bytes : Array UInt8) :
    (connect bytes s s.2.size).2.size = s.2.size + 1 ∧ Earlier (connect bytes s s.2.size).2 ∧
      ∀ key, (connect bytes s s.2.size).1.getD key 0 = 0 ∨ (connect bytes s s.2.size).1.getD key 0 < s.2.size + 1 := by
  unfold connect
  split
  · refine ⟨Array.size_push _, fun place => ?_, fun key => (places key).imp_right Nat.lt_succ_of_lt⟩
    rw [getD_push]
    split
    · exact .inl rfl
    · exact earlier place
  · rename_i key _
    refine ⟨Array.size_push _, fun place => ?_, fun other => ?_⟩
    · rw [getD_push]
      split
      · rename_i last
        rw [last]
        exact places key
      · exact earlier place
    · rw [Std.HashMap.getD_insert]
      split
      · exact .inr (Nat.lt_succ_self _)
      · exact (places other).imp_right Nat.lt_succ_of_lt

theorem candidates_earlier (bytes : Array UInt8) : Earlier (candidates bytes) := by
  have passed : ∀ n, ((List.range n).foldl (connect bytes) (∅, #[])).2.size = n ∧
      Earlier ((List.range n).foldl (connect bytes) (∅, #[])).2 ∧
      ∀ key, ((List.range n).foldl (connect bytes) (∅, #[])).1.getD key 0 = 0 ∨
        ((List.range n).foldl (connect bytes) (∅, #[])).1.getD key 0 < n := by
    intro n
    induction n with
    | zero => exact ⟨rfl, fun place => .inl rfl, fun key => .inl Std.HashMap.getD_empty⟩
    | succ n ih =>
      obtain ⟨size, earlier, places⟩ := ih
      rw [List.range_succ, List.foldl_append, List.foldl_cons, List.foldl_nil]
      generalize (List.range n).foldl (connect bytes) (∅, #[]) = s at size earlier places
      subst size
      exact earlier_connect places earlier bytes
  rw [candidates_eq]
  exact (passed bytes.size).2.1

/-! ### Tokens -/

/-- The place up to which there are tokens. -/
def tokenized (place : Nat) (held : Bool) : Nat := if held then place - 1 else place

/-- What is known where tokens go on: the bytes before have their tokens, but for one that may be held, and a match
    that is long enough for a copy begins at that byte. -/
structure Onward (bytes : Array UInt8) (place : Nat) (known : Nat × Nat) (held : Bool) (done : List Token) : Prop where
  within : place ≤ bytes.size
  begun : held = true → 1 ≤ place
  knows : leastLength ≤ known.1 → held = true ∧ Shares bytes (place - 1) known
  expands : Expands [] done.reverse (written bytes (tokenized place held))

variable {held : Bool} {done : List Token}

theorem Onward.settle (onward : Onward bytes place known held done) :
    Expands [] (if held then .literal (bytes.getD (place - 1) 0) :: done else done).reverse (written bytes place) := by
  have expands := onward.expands
  cases held with
  | false => exact expands
  | true =>
    have begun := onward.begun rfl
    have within := onward.within
    have inside : place - 1 < bytes.size := by omega
    have here : bytes[place - 1]? = some (bytes.getD (place - 1) 0) := by
      rw [Array.getD_eq_getD_getElem?, Array.getElem?_eq_getElem inside, Option.getD_some]
    rw [if_pos rfl, List.reverse_cons]
    refine expands.append (.literal ?_)
    have next := written_succ here
    rw [Nat.sub_add_cancel begun] at next
    rw [next]
    exact .done

/-- A copy that was known one byte before is taken. -/
theorem Onward.copy (onward : Onward bytes place known held done) (long : leastLength ≤ known.1) :
    Onward bytes (place + (known.1 - 1)) (leastLength - 1, 0) false (.copy known.1 (place - 1 - known.2) :: done) := by
  obtain ⟨rfl, shares⟩ := onward.knows long
  have begun := onward.begun rfl
  have within := onward.within
  have least : 3 ≤ known.1 := long
  have most : known.1 ≤ 258 := shares.most
  have near : place - 1 - known.2 ≤ 32506 := shares.near
  have earlier := shares.earlier
  obtain ⟨_, _, last⟩ := shares.same (known.1 - 1) (by omega)
  have inside := (Array.getElem?_eq_some_iff.mp last).1
  have after : place - 1 + known.1 = place + (known.1 - 1) := by omega
  refine ⟨by omega, nofun, fun short => absurd short (by decide), ?_⟩
  rw [List.reverse_cons]
  refine onward.expands.append (.copy ⟨⟨least, most⟩, by omega, by omega⟩ ?_ .done)
  have repeats := repeatOutput_written earlier shares.same (by omega)
  rwa [after] at repeats

/-- No copy begins one byte before: that byte has its token now, and the byte at the place is held. -/
theorem Onward.hold (onward : Onward bytes place known held done) (earlier : Earlier before) (going : place < bytes.size)
    (longer : ¬ (leastLength ≤ known.1 ∧ (matchAt bytes before place known).1 ≤ known.1)) :
    Onward bytes (place + 1) (matchAt bytes before place known) true
      (if held then .literal (bytes.getD (place - 1) 0) :: done else done) := by
  refine ⟨going, fun _ => Nat.succ_pos _, fun long => ⟨rfl, ?_⟩, onward.settle⟩
  rcases @matchAt_shares bytes before place known earlier with short | shares
  · simp only [leastLength] at long longer short
    omega
  · exact shares

theorem expands_tokensFrom (earlier : Earlier before) (onward : Onward bytes place known held done) :
    Expands [] (tokensFrom bytes before place known held done).reverse (written bytes bytes.size) := by
  fun_induction tokensFrom bytes before place known held done with
  | case1 place known done _ ended =>
    obtain rfl := Nat.le_antisymm onward.within ended
    exact onward.settle
  | case2 place known held done ended notHeld =>
    have settled := onward.settle
    rwa [if_neg notHeld, Nat.le_antisymm onward.within ended] at settled
  | case3 place known held done _ _ long ih => exact ih (onward.copy long.1)
  | case4 place known held done _ going _ longer ih => exact ih (onward.hold earlier (Nat.lt_of_not_le going) longer)

end Repetition

/-- The tokens of some bytes stand for these bytes. -/
theorem expands_tokensOf (bytes : List UInt8) : Expands [] (tokensOf bytes.toArray) bytes.reverse := by
  have start : Repetition.Onward bytes.toArray 0 (Repetition.leastLength - 1, 0) false [] :=
    ⟨Nat.zero_le _, nofun, fun long => absurd long (by decide), .done⟩
  have expands := Repetition.expands_tokensFrom (Repetition.candidates_earlier bytes.toArray) start
  rwa [Repetition.written, ← Array.length_toList, List.take_length] at expands

end WorkflowCompiler.Codec
