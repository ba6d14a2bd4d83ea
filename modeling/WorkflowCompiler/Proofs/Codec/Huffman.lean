import Mathlib.Algebra.BigOperators.Intervals
import WorkflowCompiler.Proofs.Arrays
import WorkflowCompiler.Proofs.Codec.Bits

/-!
Canonical codes are read as they are written. The word of a symbol is the first word of
its length and the number of symbols of that length before it (`word_eq`). Where the words
fit, a word that is read bit by bit is not taken for a shorter one, and stands for its
symbol again (`Huffman.read_word`). The words fit, and leave nothing over, where their
shares of all words of the greatest length add up to the whole (`leftOver_of_share`).
-/
namespace WorkflowCompiler.Codec

/-! ### First words -/

theorem length_firstWords (word : Nat) (counts : List Nat) : (firstWords word counts).length = counts.length := by
  induction counts generalizing word with
  | nil => rfl
  | cons count counts ih => rw [firstWords, List.length_cons, ih, List.length_cons]

/-- A first word is not before the words that begin with an earlier one. -/
theorem firstWords_ge {word d first : Nat} {counts : List Nat} (here : (firstWords word counts)[d]? = some first) :
    word * 2 ^ d ≤ first := by
  induction counts generalizing word d with
  | nil => cases here
  | cons count counts ih =>
    cases d with
    | zero =>
      cases here
      rw [Nat.pow_zero, Nat.mul_one]
    | succ d =>
      have later := ih here
      have step : word * 2 ^ (d + 1) = 2 * word * 2 ^ d := by rw [Nat.pow_succ', ← Nat.mul_assoc, Nat.mul_comm word 2]
      have more : 2 * word * 2 ^ d ≤ 2 * (word + count) * 2 ^ d := Nat.mul_le_mul_right _ (by omega)
      omega

/-- The words of every length fit, if nothing is too much. -/
theorem firstWords_fit {word left d first count room : Nat} {counts : List Nat} (fits : leftOver left counts ≠ none)
    (here : (firstWords word counts)[d]? = some first) (many : counts[d]? = some count) (whole : word + 2 * left = room) :
    first + count ≤ room * 2 ^ d := by
  induction counts generalizing word left d room with
  | nil => cases here
  | cons c counts ih =>
    rw [leftOver] at fits
    split at fits
    · exact absurd rfl fits
    · rename_i few
      cases d with
      | zero =>
        cases here
        cases many
        omega
      | succ d =>
        have later : first + count ≤ 2 * room * 2 ^ d := ih fits here many (by omega)
        rwa [Nat.mul_comm 2, Nat.mul_assoc, ← Nat.pow_succ'] at later

/-! ### Reading words -/

/-- The highest bit comes last. -/
theorem bitsOfNat_succ (count n : Nat) : bitsOfNat (count + 1) n = bitsOfNat count n ++ [n / 2 ^ count % 2 == 1] := by
  induction count generalizing n with
  | zero => rw [Nat.pow_zero, Nat.div_one]; rfl
  | succ count ih =>
    rw [bitsOfNat, ih (n / 2), Nat.div_div_eq_div_mul, ← Nat.pow_succ']
    rfl

/-- With its next bit a number is twice as large. -/
theorem div_pow_eq (c d : Nat) : 2 * (c / 2 ^ (d + 1)) + (c / 2 ^ d % 2 == 1).toNat = c / 2 ^ d := by
  have bit : (c / 2 ^ d % 2 == 1).toNat = c / 2 ^ d % 2 := by
    rcases Nat.mod_two_eq_zero_or_one (c / 2 ^ d) with even | odd
    · rw [even]; rfl
    · rw [odd]; rfl
  rw [bit, Nat.pow_succ, ← Nat.div_div_eq_div_mul]
  omega

/-- A word of the length that is `d + 1` bits ahead, after what was read of it. -/
theorem readWord_word (symbols : List Nat) {counts : List Nat} {first index d start count r : Nat}
    (here : (firstWords first counts)[d]? = some start) (many : counts[d]? = some count) (among : r < count) (rest : List Bool) :
    readWord symbols counts ((start + r) / 2 ^ (d + 1)) first index ((bitsOfNat (d + 1) (start + r)).reverse ++ rest) =
      (symbols[index + (counts.take d).sum + r]?).map fun s => (s, rest) := by
  induction counts generalizing first index d with
  | nil => cases here
  | cons c counts ih =>
    rw [bitsOfNat_succ, List.reverse_append, List.reverse_singleton, List.singleton_append, List.cons_append, readWord, div_pow_eq]
    cases d with
    | zero =>
      cases here
      cases many
      rw [Nat.pow_zero, Nat.div_one, if_pos (by omega), Nat.add_sub_cancel_left]
      rfl
    | succ d =>
      have onward : (firstWords (2 * (first + c)) counts)[d]? = some start := here
      have late := firstWords_ge onward
      have longer : first + c ≤ (start + r) / 2 ^ (d + 1) := by
        rw [Nat.le_div_iff_mul_le (Nat.two_pow_pos _), Nat.pow_succ', ← Nat.mul_assoc, Nat.mul_comm (first + c) 2]
        omega
      rw [if_neg (Nat.not_lt.mpr longer), ih here many, List.take_succ_cons, List.sum_cons, Nat.add_assoc index]

/-! ### The symbols of a code -/

theorem length_symbolsOfLength (lengths : List Nat) (length : Nat) :
    (symbolsOfLength lengths length).length = lengths.count length := by
  have shifted : ∀ n, ((lengths.zipIdx n).filterMap fun e => if e.1 = length then some e.2 else none).length =
      lengths.count length := by
    induction lengths with
    | nil => exact fun n => rfl
    | cons l lengths ih =>
      intro n
      rw [List.zipIdx_cons, List.filterMap_cons, List.count_cons, ← ih (n + 1)]
      by_cases same : l = length
      · simp [same]
      · simp [same]
  exact shifted 0

/-- A symbol comes after those of its length that stand before it. -/
theorem getElem?_symbolsOfLength {lengths : List Nat} {s length : Nat} (here : lengths[s]? = some length) :
    (symbolsOfLength lengths length)[(lengths.take s).count length]? = some s := by
  have shifted : ∀ n, ((lengths.zipIdx n).filterMap fun e =>
      if e.1 = length then some e.2 else none)[(lengths.take s).count length]? = some (n + s) := by
    induction lengths generalizing s with
    | nil => cases here
    | cons l lengths ih =>
      intro n
      rw [List.zipIdx_cons, List.filterMap_cons]
      cases s with
      | zero =>
        cases here
        simp
      | succ s =>
        have later := ih (s := s) here (n + 1)
        rw [List.take_succ_cons, List.count_cons]
        by_cases same : l = length
        · simp only [same, if_true, beq_self_eq_true, List.getElem?_cons_succ]
          rw [later]
          congr 1
          omega
        · simp only [same, if_false, beq_iff_eq, Nat.add_zero]
          rw [later]
          congr 1
          omega
  have found := shifted 0
  rwa [Nat.zero_add] at found

theorem getElem?_flatMap {α β : Type} (f : α → List β) {items : List α} {d r : Nat} {a : α} (here : items[d]? = some a)
    (inside : r < (f a).length) :
    (items.flatMap f)[((items.map fun x => (f x).length).take d).sum + r]? = (f a)[r]? := by
  induction items generalizing d with
  | nil => cases here
  | cons x items ih =>
    rw [List.flatMap_cons]
    cases d with
    | zero =>
      cases here
      simp only [List.take_zero, List.sum_nil, Nat.zero_add]
      exact List.getElem?_append_left inside
    | succ d =>
      rw [List.map_cons, List.take_succ_cons, List.sum_cons, Nat.add_assoc, List.getElem?_append_right (Nat.le_add_right _ _),
        Nat.add_sub_cancel_left]
      exact ih here

theorem getElem?_wordLengths {d : Nat} (short : d < longestWord) : wordLengths[d]? = some (d + 1) := by
  simp [wordLengths, short]

/-- The symbol whose word is `r` words after the first one of its length. -/
theorem getElem?_symbols {lengths : List Nat} {d r : Nat} (short : d < longestWord) (among : r < lengths.count (d + 1)) :
    (Huffman.ofLengths lengths).symbols[((Huffman.ofLengths lengths).counts.take d).sum + r]? =
      (symbolsOfLength lengths (d + 1))[r]? := by
  have counts : (Huffman.ofLengths lengths).counts = wordLengths.map fun k => (symbolsOfLength lengths k).length := by
    simp only [Huffman.ofLengths, length_symbolsOfLength]
  rw [counts]
  exact getElem?_flatMap (symbolsOfLength lengths) (getElem?_wordLengths short) (by rwa [length_symbolsOfLength])

/-! ### Writing words -/

/-- What is known of the words when some lengths have been passed. -/
structure Numbered (firsts passed : List Nat) (state : Array (List Bool) × Array Nat) : Prop where
  size : state.1.size = passed.length
  room : state.2.size = firsts.length
  next : ∀ d < firsts.length, state.2.getD d 0 = firsts.getD d 0 + passed.count (d + 1)
  words : ∀ s d, passed[s]? = some (d + 1) →
    state.1.getD s [] = (bitsOfNat (d + 1) (firsts.getD d 0 + (passed.take s).count (d + 1))).reverse

/-- The next word of a length, as `wordsOf` takes it. -/
def numberWord (state : Array (List Bool) × Array Nat) (length : Nat) : Array (List Bool) × Array Nat :=
  if length = 0 then (state.1.push [], state.2)
  else
    (state.1.push (bitsOfNat length (state.2.getD (length - 1) 0)).reverse, state.2.modify (length - 1) (· + 1))

theorem getElem?_append_singleton {α : Type} {items : List α} {last a : α} {s : Nat} (here : (items ++ [last])[s]? = some a) :
    items[s]? = some a ∨ s = items.length ∧ last = a := by
  by_cases before : s < items.length
  · rw [List.getElem?_append_left before] at here
    exact .inl here
  · rw [List.getElem?_append_right (by omega), List.getElem?_singleton] at here
    split at here
    · cases here
      exact .inr ⟨by omega, rfl⟩
    · cases here

theorem Numbered.word {firsts passed : List Nat} {state : Array (List Bool) × Array Nat} (numbered : Numbered firsts passed state)
    {length : Nat} (short : length ≤ firsts.length) : Numbered firsts (passed ++ [length]) (numberWord state length) := by
  have kept {s d : Nat} (here : passed[s]? = some (d + 1)) (word : List Bool) : (state.1.push word).getD s [] =
      (bitsOfNat (d + 1) (firsts.getD d 0 + ((passed ++ [length]).take s).count (d + 1))).reverse := by
    have before : s < passed.length := (List.getElem?_eq_some_iff.mp here).1
    rw [getD_push, if_neg (by rw [numbered.size]; omega), List.take_append_of_le_length (by omega)]
    exact numbered.words s d here
  cases length with
  | zero =>
    refine ⟨?_, numbered.room, fun d inside => ?_, fun s d here => ?_⟩
    · rw [numberWord, if_pos rfl, Array.size_push, numbered.size, List.length_append, List.length_singleton]
    · rw [List.count_append, List.count_singleton, if_neg (by simp), Nat.add_zero]
      exact numbered.next d inside
    · rcases getElem?_append_singleton here with earlier | ⟨_, none⟩
      · exact kept earlier []
      · cases none
  | succ k =>
    have word : numberWord state (k + 1) =
        (state.1.push (bitsOfNat (k + 1) (state.2.getD k 0)).reverse, state.2.modify k (· + 1)) := rfl
    rw [word]
    refine ⟨?_, ?_, fun d inside => ?_, fun s d here => ?_⟩
    · rw [Array.size_push, numbered.size, List.length_append, List.length_singleton]
    · rw [Array.size_modify, numbered.room]
    · have within : k < state.2.size := by
        rw [numbered.room]
        exact short
      rw [getD_modify within, numbered.next d inside, List.count_append, List.count_singleton]
      by_cases same : d = k
      · rw [if_pos same, if_pos (by simp [same]), Nat.add_assoc]
      · rw [if_neg same, if_neg (by simp [Ne.symm same])]
        rfl
    · rcases getElem?_append_singleton here with earlier | ⟨rfl, same⟩
      · exact kept earlier _
      · cases same
        rw [getD_push, if_pos numbered.size.symm, List.take_left, numbered.next k (by omega)]

theorem numbered_foldl {firsts : List Nat} (lengths : List Nat) {passed : List Nat} {state : Array (List Bool) × Array Nat}
    (numbered : Numbered firsts passed state) (short : ∀ l ∈ lengths, l ≤ firsts.length) :
    Numbered firsts (passed ++ lengths) (lengths.foldl numberWord state) := by
  induction lengths generalizing passed state with
  | nil => rwa [List.append_nil]
  | cons l lengths ih =>
    obtain ⟨here, others⟩ := List.forall_mem_cons.mp short
    rw [List.foldl_cons, ← List.singleton_append, ← List.append_assoc]
    exact ih (numbered.word here) others

theorem wordsOf_eq (lengths : List Nat) :
    wordsOf lengths = (lengths.foldl numberWord (#[], (firstWords 0 (Huffman.ofLengths lengths).counts).toArray)).1 := rfl

variable {lengths : List Nat} {s d : Nat}

/-- The word of a symbol. -/
theorem word_eq (short : ∀ l ∈ lengths, l ≤ longestWord) (here : lengths[s]? = some (d + 1)) :
    (wordsOf lengths).getD s [] =
      (bitsOfNat (d + 1) ((firstWords 0 (Huffman.ofLengths lengths).counts).getD d 0 + (lengths.take s).count (d + 1))).reverse := by
  have all : (firstWords 0 (Huffman.ofLengths lengths).counts).length = longestWord := by
    rw [length_firstWords]
    simp [Huffman.ofLengths, wordLengths]
  have start : Numbered (firstWords 0 (Huffman.ofLengths lengths).counts) []
      (#[], (firstWords 0 (Huffman.ofLengths lengths).counts).toArray) :=
    ⟨rfl, rfl, fun d inside => by simp, fun s d here => by cases here⟩
  rw [wordsOf_eq]
  exact (numbered_foldl lengths start (by rwa [all])).words s d here

theorem length_word (short : ∀ l ∈ lengths, l ≤ longestWord) (here : lengths[s]? = some (d + 1)) :
    ((wordsOf lengths).getD s []).length = d + 1 := by
  rw [word_eq short here, List.length_reverse, length_bitsOfNat]

/-- A word stands for its symbol, whatever follows it. -/
theorem Huffman.read_word (short : ∀ l ∈ lengths, l ≤ longestWord) (fits : leftOver 1 (Huffman.ofLengths lengths).counts ≠ none)
    (here : lengths[s]? = some (d + 1)) (rest : List Bool) :
    (Huffman.ofLengths lengths).read ((wordsOf lengths).getD s [] ++ rest) = some (s, rest) := by
  obtain ⟨inside, same⟩ := List.getElem?_eq_some_iff.mp here
  have bound : d < longestWord := short (d + 1) (same ▸ List.getElem_mem inside)
  have many : (Huffman.ofLengths lengths).counts[d]? = some (lengths.count (d + 1)) := by
    rw [Huffman.ofLengths, List.getElem?_map, getElem?_wordLengths bound]
    rfl
  have within : d < (firstWords 0 (Huffman.ofLengths lengths).counts).length := by
    rw [length_firstWords]
    exact (List.getElem?_eq_some_iff.mp many).1
  have first := List.getElem?_eq_getElem within
  have symbol := getElem?_symbolsOfLength here
  have among := (List.getElem?_eq_some_iff.mp symbol).1
  rw [length_symbolsOfLength] at among
  have fit := firstWords_fit fits first many (Nat.zero_add (2 * 1))
  rw [word_eq short here, List.getD_eq_getElem?_getD, first, Option.getD_some]
  generalize (firstWords 0 (Huffman.ofLengths lengths).counts)[d] = start at first fit
  generalize (lengths.take s).count (d + 1) = rank at among symbol
  have none : (start + rank) / 2 ^ (d + 1) = 0 := Nat.div_eq_of_lt (by rw [Nat.pow_succ']; omega)
  have reads : readWord _ _ _ 0 0 _ = _ := readWord_word (Huffman.ofLengths lengths).symbols first many among rest
  rw [none, Nat.zero_add] at reads
  rw [Huffman.read, reads, getElem?_symbols bound among, symbol]
  rfl

/-! ### Complete codes -/

/-- How many words of the greatest length begin with words of the given lengths. -/
def share (limit : Nat) (lengths : List Nat) : Nat := (lengths.map fun l => if l = 0 then 0 else 2 ^ (limit - l)).sum

theorem leftOver_range' {f : Nat → Nat} {left k m : Nat}
    (whole : ∑ i ∈ Finset.range m, f (k + i) * 2 ^ (m - 1 - i) = left * 2 ^ m) :
    leftOver left ((List.range' k m).map f) = some 0 := by
  induction m generalizing left k with
  | zero =>
    rw [Finset.range_zero, Finset.sum_empty, Nat.pow_zero, Nat.mul_one] at whole
    rw [← whole]
    rfl
  | succ m ih =>
    rw [Finset.sum_range_succ'] at whole
    have shifted : ∑ i ∈ Finset.range m, f (k + (i + 1)) * 2 ^ (m + 1 - 1 - (i + 1)) =
        ∑ i ∈ Finset.range m, f (k + 1 + i) * 2 ^ (m - 1 - i) := by
      refine Finset.sum_congr rfl fun i _ => ?_
      rw [Nat.add_assoc, Nat.add_comm 1 i]
      congr 2
      omega
    have twice : left * 2 ^ (m + 1) = 2 * left * 2 ^ m := by rw [Nat.pow_succ', ← Nat.mul_assoc, Nat.mul_comm left 2]
    rw [shifted, twice] at whole
    change _ + f k * 2 ^ m = _ at whole
    have fits : f k ≤ 2 * left := Nat.le_of_mul_le_mul_right (by omega) (Nat.two_pow_pos m)
    have rest : ∑ i ∈ Finset.range m, f (k + 1 + i) * 2 ^ (m - 1 - i) = (2 * left - f k) * 2 ^ m := by
      rw [Nat.sub_mul]
      omega
    rw [List.range'_succ, List.map_cons, leftOver, if_neg (by omega)]
    exact ih rest

/-- The share of a code, counted length by length. -/
theorem share_eq_sum {limit : Nat} {lengths : List Nat} (short : ∀ l ∈ lengths, l ≤ limit) :
    share limit lengths = ∑ i ∈ Finset.range limit, lengths.count (1 + i) * 2 ^ (limit - 1 - i) := by
  induction lengths with
  | nil => simp [share]
  | cons l lengths ih =>
    obtain ⟨here, others⟩ := List.forall_mem_cons.mp short
    have first : (if l = 0 then 0 else 2 ^ (limit - l)) =
        ∑ i ∈ Finset.range limit, (if l == 1 + i then 1 else 0) * 2 ^ (limit - 1 - i) := by
      cases l with
      | zero =>
        refine (Finset.sum_eq_zero fun i _ => ?_).symm
        rw [if_neg (by rw [beq_iff_eq]; omega), Nat.zero_mul]
      | succ l =>
        rw [Finset.sum_eq_single_of_mem l (Finset.mem_range.mpr here)]
        · simp [Nat.add_comm 1 l, Nat.sub_sub]
        · intro i _ other
          simp [Nat.add_comm 1 i, Ne.symm other]
    have rest := ih others
    unfold share at rest ⊢
    simp only [List.map_cons, List.sum_cons, List.count_cons, rest, first, ← Finset.sum_add_distrib, ← Nat.add_mul]
    exact Finset.sum_congr rfl fun i _ => by rw [Nat.add_comm]

theorem share_mul {limit longer : Nat} {lengths : List Nat} (short : ∀ l ∈ lengths, l ≤ limit) (within : limit ≤ longer) :
    share longer lengths = share limit lengths * 2 ^ (longer - limit) := by
  induction lengths with
  | nil => simp [share]
  | cons l lengths ih =>
    obtain ⟨here, others⟩ := List.forall_mem_cons.mp short
    have rest := ih others
    unfold share at rest ⊢
    rw [List.map_cons, List.sum_cons, List.map_cons, List.sum_cons, rest, Nat.add_mul]
    congr 1
    by_cases none : l = 0
    · rw [if_pos none, if_pos none, Nat.zero_mul]
    · rw [if_neg none, if_neg none, ← Nat.pow_add]
      congr 1
      omega

/-- Words that take up all words of the greatest length leave nothing over. -/
theorem leftOver_of_share {limit : Nat} {lengths : List Nat} (short : ∀ l ∈ lengths, l ≤ limit) (within : limit ≤ longestWord)
    (whole : share limit lengths = 2 ^ limit) : leftOver 1 (Huffman.ofLengths lengths).counts = some 0 := by
  have longest : share longestWord lengths = 1 * 2 ^ longestWord := by
    rw [share_mul short within, whole, ← Nat.pow_add, Nat.add_sub_cancel' within, Nat.one_mul]
  rw [share_eq_sum fun l member => (short l member).trans within] at longest
  have lengthsOf : wordLengths = List.range' 1 longestWord := by decide
  rw [Huffman.ofLengths, lengthsOf]
  exact leftOver_range' longest

end WorkflowCompiler.Codec
