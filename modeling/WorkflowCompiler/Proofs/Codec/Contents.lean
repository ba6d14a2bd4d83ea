import WorkflowCompiler.Proofs.Codec.CodeLengths
import WorkflowCompiler.Proofs.Codec.Tokens

/-!
The contents of a block. A code reads a word if it takes it for its symbol, whatever comes
behind it (`Huffman.Reads`). Where this is so of all words that stand in a block, the block
gives the output that its tokens stand for (`readSymbols_contentBits`). A length or a
distance has a symbol since its table leaves no gap (`Gapless`). A code made for what
occurs reads every word that occurs (`Complete.reads`), and so does a fixed code.
-/
namespace WorkflowCompiler.Codec

/-! ### Words -/

/-- The word of a symbol is read as that symbol. -/
def Huffman.Reads (h : Huffman) (words : Array (List Bool)) (s : Nat) : Prop :=
  ∀ rest : List Bool, h.read (words.getD s [] ++ rest) = some (s, rest)

/-- Nothing is read from nothing. -/
theorem Huffman.read_nil (h : Huffman) : h.read [] = none := by
  cases shape : h.counts with
  | nil => rw [Huffman.read, shape, readWord]
  | cons count counts => rw [Huffman.read, shape, readWord]

theorem Huffman.Reads.word_ne_nil {h : Huffman} {words : Array (List Bool)} {s : Nat} (reads : h.Reads words s) :
    words.getD s [] ≠ [] := by
  intro none
  have empty := reads []
  rw [none, List.append_nil, Huffman.read_nil] at empty
  cases empty

section
variable {limit s : Nat} {weights lengths : List Nat}

theorem Huffman.reads_of_length (short : ∀ l ∈ lengths, l ≤ longestWord)
    (fits : leftOver 1 (Huffman.ofLengths lengths).counts ≠ none) (coded : lengths.getD s 0 ≠ 0) :
    (Huffman.ofLengths lengths).Reads (wordsOf lengths) s := by
  rw [List.getD_eq_getElem?_getD] at coded
  cases here : lengths[s]? with
  | none =>
    rw [here] at coded
    exact absurd rfl coded
  | some l =>
    rw [here, Option.getD_some] at coded
    obtain ⟨d, rfl⟩ := Nat.exists_eq_succ_of_ne_zero coded
    exact Huffman.read_word short fits here

theorem Complete.leftOver (complete : Complete limit weights lengths) (within : limit ≤ longestWord) :
    leftOver 1 (Huffman.ofLengths lengths).counts = some 0 := leftOver_of_share complete.short within complete.whole

theorem Complete.reads (complete : Complete limit weights lengths) (within : limit ≤ longestWord) (used : weights.getD s 0 ≠ 0) :
    (Huffman.ofLengths lengths).Reads (wordsOf lengths) s := by
  have fits : Codec.leftOver 1 (Huffman.ofLengths lengths).counts ≠ none := by
    rw [complete.leftOver within]
    exact Option.some_ne_none 0
  exact Huffman.reads_of_length (fun l member => (complete.short l member).trans within) fits (complete.coded s used)

end

/-! ### Frequencies -/

theorem length_frequencies (count : Nat) (symbols : List Nat) : (frequencies count symbols).length = count := by
  rw [frequencies, Array.length_toList, size_foldl_modify]
  exact List.length_replicate

theorem frequencies_ne_zero {count s : Nat} {symbols : List Nat} (among : ∀ s ∈ symbols, s < count) (occurs : s ∈ symbols) :
    (frequencies count symbols).getD s 0 ≠ 0 := by
  have size : (List.replicate count 0).toArray.size = count := List.length_replicate
  have inside : ∀ s ∈ symbols, s < (List.replicate count 0).toArray.size := by rwa [size]
  have counted := getD_foldl_modify inside s
  have positive := List.count_pos_iff.mpr occurs
  rw [frequencies, List.getD_eq_getElem?_getD, Array.getElem?_toList, ← Array.getD_eq_getD_getElem?, counted]
  omega

/-! ### Symbols with further bits -/

/-- No value from the first entry of a table up to a bound falls between two entries. -/
def Gapless (bound : Nat) : List (Nat × Nat) → Prop
  | [] => True
  | [(least, width)] => bound < least + 2 ^ width
  | (least, width) :: (next, further) :: rest => least ≤ next ∧ next ≤ least + 2 ^ width ∧ Gapless bound ((next, further) :: rest)

theorem gapless_lengthSymbols : Gapless 258 lengthSymbols := by simp [Gapless, lengthSymbols]

theorem gapless_distanceSymbols : Gapless 32768 distanceSymbols := by simp [Gapless, distanceSymbols]

theorem Gapless.least_le {bound : Nat} {first entry : Nat × Nat} {rest : List (Nat × Nat)} (gapless : Gapless bound (first :: rest))
    (member : entry ∈ rest) : first.1 ≤ entry.1 := by
  induction rest generalizing first with
  | nil => cases member
  | cons next rest ih =>
    obtain ⟨order, _, onward⟩ := gapless
    rcases List.mem_cons.mp member with rfl | later
    · exact order
    · exact order.trans (ih onward later)

theorem getLast?_filter_zipIdx {bound value n : Nat} {first : Nat × Nat} {rest : List (Nat × Nat)}
    (gapless : Gapless bound (first :: rest)) (above : first.1 ≤ value) (within : value ≤ bound) :
    ∃ i least width : Nat, (((first :: rest).zipIdx n).filter fun e => e.1.1 ≤ value).getLast? = some ((least, width), n + i) ∧
      (first :: rest)[i]? = some (least, width) ∧ least ≤ value ∧ value < least + 2 ^ width := by
  induction rest generalizing first n with
  | nil => exact ⟨0, first.1, first.2, by simp [above], rfl, above, Nat.lt_of_le_of_lt within gapless⟩
  | cons next rest ih =>
    have whole := gapless
    obtain ⟨order, close, onward⟩ := gapless
    rw [List.zipIdx_cons, List.filter_cons_of_pos (by simpa using above)]
    by_cases further : next.1 ≤ value
    · obtain ⟨i, least, width, last, here, bounds⟩ := ih onward further (n := n + 1)
      refine ⟨i + 1, least, width, ?_, here, bounds⟩
      rw [List.getLast?_cons, last]
      simp [Nat.add_assoc, Nat.add_comm 1 i]
    · have none : ((next :: rest).zipIdx (n + 1)).filter (fun e => decide (e.1.1 ≤ value)) = [] := by
        rw [List.filter_eq_nil_iff]
        intro entry member
        have later : next.1 ≤ entry.1.1 := by
          rcases List.mem_cons.mp (List.fst_mem_of_mem_zipIdx member) with same | behind
          · rw [same]
          · exact onward.least_le behind
        simpa using Nat.lt_of_lt_of_le (Nat.lt_of_not_le further) later
      rw [none]
      exact ⟨0, first.1, first.2, rfl, rfl, above, by omega⟩

section
variable {bound value least width : Nat} {rest : List (Nat × Nat)}

/-- The symbol of a value: its entry, and how far the value is above the least one of the entry. -/
theorem symbolOf_spec (gapless : Gapless bound ((least, width) :: rest)) (above : least ≤ value) (within : value ≤ bound) :
    ∃ entry : Nat × Nat, ((least, width) :: rest)[(symbolOf ((least, width) :: rest) value).code]? = some entry ∧
      entry.2 = (symbolOf ((least, width) :: rest) value).width ∧
        entry.1 + (symbolOf ((least, width) :: rest) value).extra = value ∧
          (symbolOf ((least, width) :: rest) value).extra <
            2 ^ (symbolOf ((least, width) :: rest) value).width := by
  obtain ⟨i, low, wide, last, here, reached, before⟩ := getLast?_filter_zipIdx (n := 0) gapless above within
  have symbol : symbolOf ((least, width) :: rest) value = ⟨i, value - low, wide⟩ := by
    rw [symbolOf, last, Nat.zero_add]
  rw [symbol]
  exact ⟨(low, wide), here, rfl, Nat.add_sub_of_le reached, Nat.sub_lt_left_of_lt_add reached before⟩

/-- What stands behind the word of a symbol gives its value. -/
theorem readValue_symbolOf (gapless : Gapless bound ((least, width) :: rest)) (above : least ≤ value) (within : value ≤ bound)
    (bits : List Bool) :
    readValue ((least, width) :: rest) (symbolOf ((least, width) :: rest) value).code
      (bitsOfNat (symbolOf ((least, width) :: rest) value).width (symbolOf ((least, width) :: rest) value).extra ++ bits) =
        some (value, bits) := by
  obtain ⟨entry, here, wide, sum, small⟩ := symbolOf_spec gapless above within
  rw [readValue, here]
  dsimp only
  rw [wide, readBits_bitsOfNat small]
  exact congrArg (fun v => some (v, bits)) sum

theorem symbolOf_code_lt (gapless : Gapless bound ((least, width) :: rest)) (above : least ≤ value) (within : value ≤ bound) :
    (symbolOf ((least, width) :: rest) value).code < rest.length + 1 := by
  obtain ⟨entry, here, _⟩ := symbolOf_spec gapless above within
  exact (List.getElem?_eq_some_iff.mp here).1

theorem width_symbolOf_le {most : Nat} (gapless : Gapless bound ((least, width) :: rest)) (above : least ≤ value)
    (within : value ≤ bound) (widths : ∀ entry ∈ (least, width) :: rest, entry.2 ≤ most) :
    (symbolOf ((least, width) :: rest) value).width ≤ most := by
  obtain ⟨entry, here, wide, _⟩ := symbolOf_spec gapless above within
  exact wide ▸ widths entry (List.mem_of_getElem? here)

end

/-! ### Tokens -/

section
variable {out final : List UInt8} {tokens : List Token} {t : Token}

theorem Expands.valid (expands : Expands out tokens final) : ∀ t ∈ tokens, t.Valid := by
  induction expands with
  | done => exact nofun
  | literal _ ih => exact List.forall_mem_cons.mpr ⟨trivial, ih⟩
  | copy valid _ _ ih => exact List.forall_mem_cons.mpr ⟨valid, ih⟩

theorem Token.Valid.symbol_lt (valid : t.Valid) : t.symbol.code < 286 := by
  cases t with
  | literal b => exact Nat.lt_trans b.toNat_lt (by decide)
  | copy length distance =>
    have inside : (symbolOf lengthSymbols length).code < 29 := symbolOf_code_lt gapless_lengthSymbols valid.1.1 valid.1.2
    rw [Token.symbol]
    dsimp only
    omega

theorem Token.Valid.distance_lt (valid : t.Valid) {d : Symbol} (copies : t.distance? = some d) : d.code < 30 := by
  cases t with
  | literal b => cases copies
  | copy length distance =>
    cases copies
    exact symbolOf_code_lt gapless_distanceSymbols valid.2.1 valid.2.2

variable {symbols distances : Huffman} {words places : Array (List Bool)} {fuel : Nat}

theorem readSymbols_literal {b : UInt8} (coded : symbols.Reads words b.toNat) (rest : List Bool) :
    readSymbols symbols distances (fuel + 1) (tokenBits words places (.literal b) ++ rest) out =
      readSymbols symbols distances fuel rest (b :: out) := by
  have bits : tokenBits words places (.literal b) ++ rest = words.getD b.toNat [] ++ rest := by
    simp [tokenBits, symbolBits, Token.symbol, Token.distance?, bitsOfNat]
  rw [bits, readSymbols, coded]
  dsimp only
  rw [if_pos (show b.toNat < endOfBlock from b.toNat_lt), UInt8.ofNat_toNat]

theorem readSymbols_copy {length distance : Nat} {longer : List UInt8} (valid : (Token.copy length distance).Valid)
    (repeats : repeatOutput distance length out = some longer)
    (coded : symbols.Reads words (257 + (symbolOf lengthSymbols length).code))
    (placed : distances.Reads places (symbolOf distanceSymbols distance).code) (rest : List Bool) :
    readSymbols symbols distances (fuel + 1) (tokenBits words places (.copy length distance) ++ rest) out =
      readSymbols symbols distances fuel rest longer := by
  obtain ⟨⟨least, most⟩, before, near⟩ := valid
  have long (bits : List Bool) : readValue lengthSymbols (symbolOf lengthSymbols length).code
      (bitsOfNat (symbolOf lengthSymbols length).width (symbolOf lengthSymbols length).extra ++ bits) = some (length, bits) :=
    readValue_symbolOf gapless_lengthSymbols least most bits
  have far (bits : List Bool) : readValue distanceSymbols (symbolOf distanceSymbols distance).code
      (bitsOfNat (symbolOf distanceSymbols distance).width (symbolOf distanceSymbols distance).extra ++ bits) =
        some (distance, bits) :=
    readValue_symbolOf gapless_distanceSymbols before near bits
  have bits : tokenBits words places (.copy length distance) ++ rest =
      words.getD (257 + (symbolOf lengthSymbols length).code) [] ++
        (bitsOfNat (symbolOf lengthSymbols length).width (symbolOf lengthSymbols length).extra ++
          (places.getD (symbolOf distanceSymbols distance).code [] ++
            (bitsOfNat (symbolOf distanceSymbols distance).width (symbolOf distanceSymbols distance).extra ++ rest))) := by
    simp only [tokenBits, symbolBits, Token.symbol, Token.distance?, List.append_assoc]
  rw [bits, readSymbols, coded]
  dsimp only
  rw [if_neg (by simp only [endOfBlock]; omega), if_neg (by simp only [endOfBlock]; omega), Nat.add_sub_cancel_left, long]
  simp only [Option.bind_eq_bind, Option.bind_some]
  rw [placed]
  simp only [Option.bind_some, far, repeats]

theorem contentBits_cons (words places : Array (List Bool)) (t : Token) (tokens : List Token) (rest : List Bool) :
    contentBits words places (t :: tokens) ++ rest = tokenBits words places t ++ (contentBits words places tokens ++ rest) := by
  simp only [contentBits, List.flatMap_cons, List.append_assoc]

/-- Every token takes a bit at least. -/
theorem length_le_contentBits (coded : ∀ t ∈ tokens, symbols.Reads words t.symbol.code) :
    tokens.length ≤ (contentBits words places tokens).length := by
  induction tokens with
  | nil => exact Nat.zero_le _
  | cons t tokens ih =>
    obtain ⟨here, others⟩ := List.forall_mem_cons.mp coded
    have word := List.length_pos_iff.mpr here.word_ne_nil
    have later := ih others
    have bits := congrArg List.length (contentBits_cons words places t tokens [])
    simp only [List.append_nil, List.length_append, tokenBits, symbolBits, List.length_cons] at bits ⊢
    omega

/-- Words that are read as their symbols give the output that the tokens stand for. -/
theorem readSymbols_contentBits (expands : Expands out tokens final) (coded : ∀ t ∈ tokens, symbols.Reads words t.symbol.code)
    (placed : ∀ t ∈ tokens, ∀ d, t.distance? = some d → distances.Reads places d.code) (ends : symbols.Reads words endOfBlock)
    (enough : tokens.length < fuel) (rest : List Bool) :
    readSymbols symbols distances fuel (contentBits words places tokens ++ rest) out = some (final, rest) := by
  obtain ⟨fuel, rfl⟩ := Nat.exists_eq_succ_of_ne_zero (Nat.ne_zero_of_lt enough)
  induction expands generalizing fuel with
  | done =>
    rw [contentBits, List.flatMap_nil, List.nil_append, readSymbols, ends]
    rfl
  | @literal out final b tokens _ ih =>
    obtain ⟨here, others⟩ := List.forall_mem_cons.mp coded
    obtain ⟨_, behind⟩ := List.forall_mem_cons.mp placed
    obtain ⟨fuel, rfl⟩ := Nat.exists_eq_succ_of_ne_zero (Nat.ne_zero_of_lt (Nat.lt_of_succ_lt_succ enough))
    rw [contentBits_cons, readSymbols_literal here]
    exact ih others behind _ (Nat.lt_of_succ_lt_succ enough)
  | @copy out longer final length distance tokens valid repeats _ ih =>
    obtain ⟨here, others⟩ := List.forall_mem_cons.mp coded
    obtain ⟨place, behind⟩ := List.forall_mem_cons.mp placed
    obtain ⟨fuel, rfl⟩ := Nat.exists_eq_succ_of_ne_zero (Nat.ne_zero_of_lt (Nat.lt_of_succ_lt_succ enough))
    rw [contentBits_cons, readSymbols_copy valid repeats here (place _ rfl)]
    exact ih others behind _ (Nat.lt_of_succ_lt_succ enough)

/-- There are bits enough for every token. -/
theorem readSymbols_all (expands : Expands out tokens final) (coded : ∀ t ∈ tokens, symbols.Reads words t.symbol.code)
    (placed : ∀ t ∈ tokens, ∀ d, t.distance? = some d → distances.Reads places d.code) (ends : symbols.Reads words endOfBlock)
    (rest : List Bool) :
    readSymbols symbols distances ((contentBits words places tokens ++ rest).length + 1)
      (contentBits words places tokens ++ rest) out = some (final, rest) := by
  have enough : tokens.length < (contentBits words places tokens ++ rest).length + 1 := by
    rw [List.length_append]
    exact Nat.lt_succ_of_le (Nat.le_add_right_of_le (length_le_contentBits coded))
  exact readSymbols_contentBits expands coded placed ends enough rest

end

end WorkflowCompiler.Codec
