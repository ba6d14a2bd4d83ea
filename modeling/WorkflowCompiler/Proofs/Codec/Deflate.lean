import WorkflowCompiler.Proofs.Codec.Codes

/-!
Compressed blocks are read back (`inflate_deflate`). Each of the three forms of a block
gives the bytes of its tokens (`readBlock_blockBits`). The stored form begins at a whole
byte, so how many bits stand before a block has to be known with it; it also says how many
bytes it has in sixteen bits, and a block with more of them would take less room in the
fixed codes (`length_fixedBits`).
-/
namespace WorkflowCompiler.Codec

/-! ### Fixed codes -/

/-- In a code that leaves nothing over and has all words, every symbol is read. -/
theorem reads_of_share {limit s : Nat} {lengths : List Nat} (bounds : ∀ l ∈ lengths, l ≠ 0 ∧ l ≤ limit)
    (within : limit ≤ longestWord) (whole : share limit lengths = 2 ^ limit) (few : s < lengths.length) :
    (Huffman.ofLengths lengths).Reads (wordsOf lengths) s := by
  have fits : leftOver 1 (Huffman.ofLengths lengths).counts ≠ none := by
    rw [leftOver_of_share (fun l member => (bounds l member).2) within whole]
    exact Option.some_ne_none 0
  refine Huffman.reads_of_length (fun l member => (bounds l member).2.trans within) fits ?_
  rw [List.getD_eq_getElem?_getD, List.getElem?_eq_getElem few]
  exact (bounds _ (List.getElem_mem few)).1

theorem length_fixedLengths : fixedLengths.length = 288 := by decide +kernel

theorem fixedLengths_bounds : ∀ l ∈ fixedLengths, l ≠ 0 ∧ l ≤ 9 := by decide +kernel

theorem reads_fixedSymbols {s : Nat} (few : s < 288) : fixedSymbols.Reads (wordsOf fixedLengths) s :=
  reads_of_share fixedLengths_bounds (by decide) (by decide +kernel) (few.trans_eq length_fixedLengths.symm)

theorem reads_fixedDistances {s : Nat} (few : s < 32) : fixedDistances.Reads (wordsOf (List.replicate 32 5)) s :=
  reads_of_share (by decide) (by decide : 5 ≤ longestWord) (by decide) few

/-! ### The room that fixed codes take -/

theorem length_word_le {limit s : Nat} {lengths : List Nat} (bounds : ∀ l ∈ lengths, l ≠ 0 ∧ l ≤ limit)
    (within : limit ≤ longestWord) (few : s < lengths.length) : ((wordsOf lengths).getD s []).length ≤ limit := by
  obtain ⟨some, short⟩ := bounds _ (List.getElem_mem few)
  obtain ⟨d, same⟩ := Nat.exists_eq_succ_of_ne_zero some
  rw [length_word (fun l member => (bounds l member).2.trans within)
    ((List.getElem?_eq_getElem few).trans (congrArg Option.some same))]
  rwa [same] at short

/-- No token takes more than 32 bits in the fixed codes. -/
theorem length_fixedToken {t : Token} (valid : t.Valid) :
    (tokenBits (wordsOf fixedLengths) (wordsOf (List.replicate 32 5)) t).length ≤ 32 := by
  have word {s : Nat} (few : s < 288) : ((wordsOf fixedLengths).getD s []).length ≤ 9 :=
    length_word_le fixedLengths_bounds (by decide) (few.trans_eq length_fixedLengths.symm)
  have place {s : Nat} (few : s < 32) : ((wordsOf (List.replicate 32 5)).getD s []).length ≤ 5 :=
    length_word_le (by decide) (by decide) few
  have symbol := word (Nat.lt_trans valid.symbol_lt (by decide))
  cases t with
  | literal b =>
    have whole : (tokenBits (wordsOf fixedLengths) (wordsOf (List.replicate 32 5)) (.literal b)).length =
        ((wordsOf fixedLengths).getD b.toNat []).length := by
      simp [tokenBits, symbolBits, Token.symbol, Token.distance?, bitsOfNat]
    rw [whole]
    exact Nat.le_trans symbol (by decide)
  | copy length distance =>
    have far := place (Nat.lt_trans (valid.distance_lt rfl) (by decide))
    have extra : (symbolOf lengthSymbols length).width ≤ 5 :=
      width_symbolOf_le gapless_lengthSymbols valid.1.1 valid.1.2 (by decide)
    have further : (symbolOf distanceSymbols distance).width ≤ 13 :=
      width_symbolOf_le gapless_distanceSymbols valid.2.1 valid.2.2 (by decide)
    have whole : (tokenBits (wordsOf fixedLengths) (wordsOf (List.replicate 32 5)) (.copy length distance)).length =
        ((wordsOf fixedLengths).getD (Token.copy length distance).symbol.code []).length + (symbolOf lengthSymbols length).width +
          (((wordsOf (List.replicate 32 5)).getD (symbolOf distanceSymbols distance).code []).length +
            (symbolOf distanceSymbols distance).width) := by
      simp only [tokenBits, symbolBits, Token.distance?, List.length_append, length_bitsOfNat]
      rfl
    omega

theorem length_fixedBits {tokens : List Token} (valid : ∀ t ∈ tokens, t.Valid) :
    (fixedBits tokens).length ≤ 32 * tokens.length + 9 := by
  induction tokens with
  | nil =>
    have few : endOfBlock < fixedLengths.length := by
      rw [length_fixedLengths]
      decide
    have word := length_word_le fixedLengths_bounds (by decide) few
    rwa [fixedBits, contentBits, List.flatMap_nil, List.nil_append, List.length_nil]
  | cons t tokens ih =>
    obtain ⟨here, others⟩ := List.forall_mem_cons.mp valid
    have token := length_fixedToken here
    have later := ih others
    have bits := congrArg List.length (contentBits_cons (wordsOf fixedLengths) (wordsOf (List.replicate 32 5)) t tokens [])
    simp only [List.append_nil, List.length_append] at bits
    simp only [fixedBits, List.length_cons] at later ⊢
    omega

/-! ### Blocks -/

section
variable {out final bytes : List UInt8} {tokens : List Token} {bits rest : List Bool}

theorem readBlock_fixed (expands : Expands out tokens final) (rest : List Bool) :
    readBlock ([true, false] ++ (fixedBits tokens ++ rest)) out = some (final, rest) := by
  have valid := expands.valid
  have coded : ∀ t ∈ tokens, fixedSymbols.Reads (wordsOf fixedLengths) t.symbol.code :=
    fun t member => reads_fixedSymbols (Nat.lt_trans (valid t member).symbol_lt (by decide))
  have placed : ∀ t ∈ tokens, ∀ d, t.distance? = some d → fixedDistances.Reads (wordsOf (List.replicate 32 5)) d.code :=
    fun t member d copies => reads_fixedDistances (Nat.lt_trans ((valid t member).distance_lt copies) (by decide))
  have kind : natOfBits [true, false] = 1 := rfl
  rw [readBlock, readBits_front (by rfl : [true, false].length = 2), kind]
  exact readSymbols_all expands coded placed (reads_fixedSymbols (by decide)) rest

/-- How often the symbols of a block occur. -/
def symbolWeights (tokens : List Token) : List Nat := frequencies 286 (endOfBlock :: tokens.map fun t => t.symbol.code)

def distanceWeights (tokens : List Token) : List Nat := frequencies 30 ((tokens.filterMap Token.distance?).map Symbol.code)

theorem ownBits_eq (tokens : List Token) : ownBits tokens =
    codeBits (codeLengths longestWord (symbolWeights tokens)) (codeLengths longestWord (distanceWeights tokens)) ++
      contentBits (wordsOf (codeLengths longestWord (symbolWeights tokens)))
        (wordsOf (codeLengths longestWord (distanceWeights tokens))) tokens := rfl

theorem symbolWeights_ne_zero (valid : ∀ t ∈ tokens, t.Valid) {s : Nat}
    (occurs : s ∈ endOfBlock :: tokens.map fun t => t.symbol.code) : (symbolWeights tokens).getD s 0 ≠ 0 := by
  refine frequencies_ne_zero (fun s member => ?_) occurs
  rcases List.mem_cons.mp member with rfl | coded
  · decide
  · obtain ⟨t, inside, rfl⟩ := List.mem_map.mp coded
    exact (valid t inside).symbol_lt

theorem distanceWeights_ne_zero (valid : ∀ t ∈ tokens, t.Valid) {t : Token} (member : t ∈ tokens) {d : Symbol}
    (copies : t.distance? = some d) : (distanceWeights tokens).getD d.code 0 ≠ 0 := by
  refine frequencies_ne_zero ?_ (List.mem_map_of_mem (List.mem_filterMap.mpr ⟨t, member, copies⟩))
  refine List.forall_mem_map.mpr fun d occurs => ?_
  obtain ⟨t, inside, same⟩ := List.mem_filterMap.mp occurs
  exact (valid t inside).distance_lt same

theorem readBlock_own (expands : Expands out tokens final) (rest : List Bool) :
    readBlock ([false, true] ++ (ownBits tokens ++ rest)) out = some (final, rest) := by
  have valid := expands.valid
  have many : (symbolWeights tokens).length = 286 := length_frequencies 286 _
  have few : (distanceWeights tokens).length = 30 := length_frequencies 30 _
  have symbols : Complete longestWord (symbolWeights tokens) (codeLengths longestWord (symbolWeights tokens)) :=
    codeLengths_complete (by rw [many]; decide) (by rw [many]; decide)
  have distances : Complete longestWord (distanceWeights tokens) (codeLengths longestWord (distanceWeights tokens)) :=
    codeLengths_complete (by rw [few]; decide) (by rw [few]; decide)
  have ends := symbolWeights_ne_zero valid List.mem_cons_self
  have kind : natOfBits [false, true] = 2 := rfl
  have codes (bits : List Bool) := readCodes_codeBits symbols distances (symbols.length.trans many) (distances.length.trans few)
    (symbols.coded _ ends) bits
  have coded : ∀ t ∈ tokens, (Huffman.ofLengths (codeLengths longestWord (symbolWeights tokens))).Reads
      (wordsOf (codeLengths longestWord (symbolWeights tokens))) t.symbol.code := fun t member =>
    symbols.reads (Nat.le_refl _) (symbolWeights_ne_zero valid (List.mem_cons_of_mem _ (List.mem_map_of_mem member)))
  have placed : ∀ t ∈ tokens, ∀ d, t.distance? = some d →
      (Huffman.ofLengths (codeLengths longestWord (distanceWeights tokens))).Reads
        (wordsOf (codeLengths longestWord (distanceWeights tokens))) d.code := fun t member d copies =>
    distances.reads (Nat.le_refl _) (distanceWeights_ne_zero valid member copies)
  rw [ownBits_eq, List.append_assoc, readBlock, readBits_front (by rfl : [false, true].length = 2), kind]
  simp only [Option.bind_eq_bind, Option.bind_some]
  rw [if_neg (by decide), if_neg (by decide), if_pos trivial, codes]
  exact readSymbols_all expands coded placed (symbols.reads (Nat.le_refl _) ends) rest

theorem readBlock_stored (short : bytes.length ≤ 0xFFFF) {padding : List Bool} (begun : padding.length < 8)
    (whole : rest.length % 8 = 0) (out : List UInt8) :
    readBlock ([false, false] ++ (padding ++ (bitsOfNat 16 bytes.length ++ (bitsOfNat 16 (0xFFFF - bytes.length) ++
      (bitsOfBytes bytes ++ rest))))) out = some (bytes.reverse ++ out, rest) := by
  have aligned : (bitsOfNat 16 bytes.length ++
      (bitsOfNat 16 (0xFFFF - bytes.length) ++ (bitsOfBytes bytes ++ rest))).length % 8 = 0 := by
    simp only [List.length_append, length_bitsOfNat, length_bitsOfBytes]
    omega
  have kind : natOfBits [false, false] = 0 := rfl
  rw [readBlock, readBits_front (by rfl : [false, false].length = 2), kind]
  change readStored _ out = _
  rw [readStored, alignToByte_append begun aligned, readBits_bitsOfNat (by omega)]
  simp only [Option.bind_eq_bind, Option.bind_some]
  rw [readBits_bitsOfNat (by omega)]
  simp only [Option.bind_some]
  rw [if_neg (by omega), readBytes_bitsOfBytes]
  rfl

/-- A block of any form gives the bytes of its tokens. -/
theorem readBlock_blockBits {last : Bool} {used : Nat} (expands : Expands out tokens (bytes.reverse ++ out))
    (few : tokens.length ≤ blockLimit) (aligned : (used + (blockBits last used bytes tokens ++ rest).length) % 8 = 0) :
    ∃ bits : List Bool, blockBits last used bytes tokens ++ rest = [last] ++ bits ∧
      readBlock bits out = some (bytes.reverse ++ out, rest) := by
  unfold blockBits at aligned ⊢
  dsimp only at aligned ⊢
  by_cases stored : bytes.length + 4 ≤ min (bytesFor (fixedBits tokens).length) (bytesFor (ownBits tokens).length)
  · rw [if_pos stored] at aligned ⊢
    have short : bytes.length ≤ 0xFFFF := by
      have room := length_fixedBits expands.valid
      have most := stored.trans (Nat.min_le_left _ _)
      simp only [bytesFor, blockLimit] at most few
      omega
    have padding : (padToByte (used + 3)).length = (8 - (used + 3) % 8) % 8 := List.length_replicate
    have whole : rest.length % 8 = 0 := by
      simp only [List.length_append, List.length_cons, padding, length_bitsOfNat, length_bitsOfBytes] at aligned
      omega
    refine ⟨_, ?_, readBlock_stored short (show (padToByte (used + 3)).length < 8 by omega) whole out⟩
    simp only [List.append_assoc, List.cons_append, List.nil_append]
  · rw [if_neg stored]
    by_cases shorter : bytesFor (fixedBits tokens).length ≤ bytesFor (ownBits tokens).length
    · rw [if_pos shorter]
      exact ⟨_, rfl, readBlock_fixed expands rest⟩
    · rw [if_neg shorter]
      exact ⟨_, rfl, readBlock_own expands rest⟩

theorem length_blockBits_pos (last : Bool) (used : Nat) (bytes : List UInt8) (tokens : List Token) :
    0 < (blockBits last used bytes tokens).length := by
  unfold blockBits
  dsimp only
  split
  · exact Nat.succ_pos _
  · split
    · exact Nat.succ_pos _
    · exact Nat.succ_pos _

/-- What the first tokens stand for are the first bytes. -/
theorem Expands.halves {front : List Token} {behind : List Token} (expands : Expands out (front ++ behind) (bytes.reverse ++ out)) :
    Expands out front ((bytes.take (front.foldr (fun t n => t.size + n) 0)).reverse ++ out) ∧
      Expands ((bytes.take (front.foldr (fun t n => t.size + n) 0)).reverse ++ out) behind (bytes.reverse ++ out) := by
  obtain ⟨mid, first, second⟩ := expands.split
  obtain ⟨added, size, rfl⟩ := first.adds
  obtain ⟨more, _, whole⟩ := second.adds
  rw [← List.append_assoc] at whole
  have parts : bytes = added.reverse ++ more.reverse := by
    rw [← List.reverse_append, ← List.append_cancel_right whole, List.reverse_reverse]
  have front' : (bytes.take (front.foldr (fun t n => t.size + n) 0)).reverse = added := by
    rw [parts, ← size, ← List.length_reverse, List.take_left, List.reverse_reverse]
  rw [front']
  exact ⟨first, second⟩

theorem readBlocks_blockBits {last : Bool} {used fuel : Nat} (expands : Expands out tokens (bytes.reverse ++ out))
    (few : tokens.length ≤ blockLimit) (aligned : (used + (blockBits last used bytes tokens ++ rest).length) % 8 = 0) :
    readBlocks (fuel + 1) (blockBits last used bytes tokens ++ rest) out =
      if last then some (bytes.reverse ++ out, rest) else readBlocks fuel rest (bytes.reverse ++ out) := by
  obtain ⟨bits, shape, block⟩ := readBlock_blockBits expands few aligned
  have mark : natOfBits [last] = last.toNat := by
    cases last with
    | false => rfl
    | true => rfl
  rw [shape, readBlocks, readBits_front (by rfl : [last].length = 1), mark]
  simp only [block]
  cases last with
  | false => rfl
  | true => rfl

theorem readBlocks_blocksBits {used fuel : Nat} (expands : Expands out tokens (bytes.reverse ++ out))
    (aligned : (used + (blocksBits used bytes tokens ++ rest).length) % 8 = 0)
    (enough : (blocksBits used bytes tokens).length < fuel) :
    readBlocks fuel (blocksBits used bytes tokens ++ rest) out = some (bytes.reverse ++ out, rest) := by
  obtain ⟨fuel, rfl⟩ := Nat.exists_eq_succ_of_ne_zero (Nat.ne_zero_of_lt enough)
  fun_induction blocksBits used bytes tokens generalizing out fuel with
  | case1 used bytes tokens more front size block =>
    rename_i ih
    rw [← List.take_append_drop blockLimit tokens] at expands
    obtain ⟨first, second⟩ := expands.halves
    have some : 0 < block.length := length_blockBits_pos false used (bytes.take size) front
    have few : front.length ≤ blockLimit := List.length_take_le _ _
    have whole : bytes.reverse ++ out = (bytes.drop size).reverse ++ ((bytes.take size).reverse ++ out) := by
      rw [← List.append_assoc, ← List.reverse_append, List.take_append_drop]
    rw [List.length_append] at enough
    obtain ⟨fuel, rfl⟩ := Nat.exists_eq_succ_of_ne_zero (show fuel ≠ 0 by omega)
    rw [List.append_assoc] at aligned ⊢
    rw [readBlocks_blockBits first few aligned, if_neg Bool.false_ne_true, whole]
    rw [List.length_append, ← Nat.add_assoc] at aligned
    exact ih (whole ▸ second) aligned fuel (by omega)
  | case2 used bytes tokens last => exact readBlocks_blockBits expands (Nat.le_of_not_le last) aligned

end

/-- Compressed bytes are what comes out of them, up to what is left of the last byte. -/
theorem inflate_deflate (bytes : List UInt8) {rest : List Bool} (whole : rest.length % 8 = 0) :
    ∃ padding : List Bool, padding.length < 8 ∧
      inflate (bitsOfBytes (deflate bytes) ++ rest) = some (bytes, padding ++ rest) := by
  obtain ⟨padding, short, same⟩ := bitsOfBytes_bytesOfBits (blocksBits 0 bytes (tokensOf bytes.toArray))
  have expands : Expands [] (tokensOf bytes.toArray) (bytes.reverse ++ []) := by
    rw [List.append_nil]
    exact expands_tokensOf bytes
  have aligned : (0 + (blocksBits 0 bytes (tokensOf bytes.toArray) ++ (padding ++ rest)).length) % 8 = 0 := by
    rw [← List.append_assoc, ← same, List.length_append, length_bitsOfBytes]
    omega
  refine ⟨padding, short, ?_⟩
  rw [deflate, same, List.append_assoc, inflate,
    readBlocks_blocksBits expands aligned (by rw [List.length_append]; omega), Option.map_some, List.append_nil,
    List.reverse_reverse]

end WorkflowCompiler.Codec
