import WorkflowCompiler.Proofs.Codec.Contents

/-!
Codes at the beginning of a block. Runs of equal lengths are written as one symbol, and
reading it makes the run again (`Runs`, `runs_lengthRuns`). The code that these symbols
are written in stands in front of them. Lengths at an end that are zero are left out in
both places, which leaves a code as it is (`ofLengths_dropZeros`). So what is read is the
codes that were written (`readCodes_codeBits`).
-/
namespace WorkflowCompiler.Codec

/-! ### Runs -/

/-- Symbols add lengths in front of those that were read, which are in reverse order. -/
inductive Runs : List Nat → List Symbol → List Nat → Prop
  | done {read : List Nat} : Runs read [] read
  | one {l : Nat} {read final : List Nat} {rest : List Symbol} (short : l < 16) (onward : Runs (l :: read) rest final) :
      Runs read (⟨l, 0, 0⟩ :: rest) final
  | again {l n : Nat} {read final : List Nat} {rest : List Symbol} (few : n < 4)
      (onward : Runs (List.replicate (3 + n) l ++ l :: read) rest final) : Runs (l :: read) (⟨16, n, 2⟩ :: rest) final
  | zeros {n : Nat} {read final : List Nat} {rest : List Symbol} (few : n < 8)
      (onward : Runs (List.replicate (3 + n) 0 ++ read) rest final) : Runs read (⟨17, n, 3⟩ :: rest) final
  | manyZeros {n : Nat} {read final : List Nat} {rest : List Symbol} (few : n < 128)
      (onward : Runs (List.replicate (11 + n) 0 ++ read) rest final) : Runs read (⟨18, n, 7⟩ :: rest) final

section
variable {read mid final : List Nat} {runs front rest : List Symbol}

theorem Runs.append (first : Runs read front mid) (onward : Runs mid rest final) : Runs read (front ++ rest) final := by
  induction first with
  | done => exact onward
  | one short _ ih => exact .one short (ih onward)
  | again few _ ih => exact .again few (ih onward)
  | zeros few _ ih => exact .zeros few (ih onward)
  | manyZeros few _ ih => exact .manyZeros few (ih onward)

theorem Runs.code_lt (runs : Runs read rest final) : ∀ r ∈ rest, r.code < 19 := by
  induction runs with
  | done => exact nofun
  | one short _ ih => exact List.forall_mem_cons.mpr ⟨Nat.lt_trans short (by decide), ih⟩
  | again _ _ ih => exact List.forall_mem_cons.mpr ⟨(by decide : 16 < 19), ih⟩
  | zeros _ _ ih => exact List.forall_mem_cons.mpr ⟨(by decide : 17 < 19), ih⟩
  | manyZeros _ _ ih => exact List.forall_mem_cons.mpr ⟨(by decide : 18 < 19), ih⟩

/-- Every symbol adds a length at least. -/
theorem Runs.length_le (runs : Runs read rest final) : rest.length + read.length ≤ final.length := by
  induction runs with
  | done => exact Nat.le_of_eq (Nat.zero_add _)
  | one _ _ ih =>
    simp only [List.length_cons] at ih ⊢
    omega
  | again _ _ ih =>
    simp only [List.length_append, List.length_replicate, List.length_cons] at ih ⊢
    omega
  | zeros _ _ ih =>
    simp only [List.length_append, List.length_replicate, List.length_cons] at ih ⊢
    omega
  | manyZeros _ _ ih =>
    simp only [List.length_append, List.length_replicate, List.length_cons] at ih ⊢
    omega

theorem runs_replicate {l : Nat} (short : l < 16) (count : Nat) (read : List Nat) :
    Runs read (List.replicate count ⟨l, 0, 0⟩) (List.replicate count l ++ read) := by
  induction count generalizing read with
  | zero => exact .done
  | succ count ih =>
    have later := ih (l :: read)
    rw [List.append_cons, ← List.replicate_succ'] at later
    exact .one short later

theorem runCount_spec (length limit : Nat) (lengths : List Nat) : runCount length limit lengths ≤ limit ∧
    lengths = List.replicate (runCount length limit lengths) length ++ lengths.drop (runCount length limit lengths) := by
  fun_induction runCount length limit lengths with
  | case1 limit rest ih => exact ⟨Nat.succ_le_succ ih.1, congrArg (length :: ·) ih.2⟩
  | case2 limit l rest other => exact ⟨Nat.zero_le _, rfl⟩
  | case3 => exact ⟨Nat.zero_le _, rfl⟩

theorem runLimits_pos (length : Nat) (before : Option Nat) : 0 < (runLimits length before).1 := by
  unfold runLimits
  split
  · decide
  · split
    · decide
    · decide

/-- The symbols of a run make it. -/
theorem runs_runSymbols {length count : Nat} {before : Option Nat} (short : length < 16)
    (known : before = none ∨ before = read.head?) (most : count ≤ (runLimits length before).1) :
    Runs read (runSymbols length count (runLimits length before).2 before) (List.replicate count length ++ read) := by
  unfold runSymbols
  unfold runLimits at most ⊢
  by_cases none : length = 0
  · subst none
    simp only [if_true] at most ⊢
    by_cases single : count < 3
    · rw [if_pos single]
      exact runs_replicate short count read
    · rw [if_neg single]
      by_cases few : count ≤ 10
      · rw [if_pos few]
        obtain ⟨n, rfl⟩ := Nat.exists_eq_add_of_le (Nat.le_of_not_lt single)
        rw [Nat.add_sub_cancel_left]
        exact .zeros (by omega) .done
      · rw [if_neg few]
        obtain ⟨n, rfl⟩ := Nat.exists_eq_add_of_le (show 11 ≤ count by omega)
        rw [Nat.add_sub_cancel_left]
        exact .manyZeros (by omega) .done
  · simp only [if_neg none] at most ⊢
    by_cases same : before = some length
    · simp only [if_pos same] at most ⊢
      by_cases single : count < 3
      · rw [if_pos single]
        exact runs_replicate short count read
      · rw [if_neg single]
        obtain ⟨n, rfl⟩ := Nat.exists_eq_add_of_le (Nat.le_of_not_lt single)
        obtain ⟨tail, rfl⟩ : ∃ tail, read = length :: tail := by
          rcases known with unknown | head
          · rw [unknown] at same
            cases same
          · exact List.head?_eq_some_iff.mp (head.symm.trans same)
        rw [Nat.add_sub_cancel_left]
        exact .again (by omega) .done
    · simp only [if_neg same] at most ⊢
      by_cases single : count < 4
      · rw [if_pos single]
        exact runs_replicate short count read
      · rw [if_neg single]
        obtain ⟨n, rfl⟩ := Nat.exists_eq_add_of_le (Nat.le_of_not_lt single)
        have whole : List.replicate (4 + n) length ++ read = List.replicate (3 + n) length ++ length :: read := by
          rw [List.append_cons, ← List.replicate_succ']
          congr 2
          omega
        rw [Nat.add_sub_cancel_left, whole]
        exact .one short (.again (by omega) .done)

/-- Lengths that are written in runs are made again. -/
theorem runs_lengthRuns {lengths : List Nat} {before : Option Nat} (short : ∀ l ∈ lengths, l < 16)
    (known : before = none ∨ before = read.head?) : Runs read (lengthRuns before lengths) (lengths.reverse ++ read) := by
  fun_induction lengthRuns before lengths generalizing read with
  | case1 before => exact .done
  | case2 before length rest most least limits further =>
    rename_i ih
    obtain ⟨here, others⟩ := List.forall_mem_cons.mp short
    obtain ⟨few, same⟩ := runCount_spec length (most - 1) rest
    have some := runLimits_pos length before
    rw [limits] at some
    have run : Runs read (runSymbols length (further + 1) least before) (List.replicate (further + 1) length ++ read) := by
      have most : further + 1 ≤ (runLimits length before).1 := by
        rw [limits]
        exact Nat.add_le_of_le_sub some few
      simpa only [limits] using runs_runSymbols here known most
    have later := @ih (List.replicate (further + 1) length ++ read) (fun l member => others l (List.mem_of_mem_drop member))
      (.inr (by rw [List.replicate_succ]; rfl))
    have whole : (length :: rest).reverse ++ read =
        (rest.drop further).reverse ++ (List.replicate (further + 1) length ++ read) := by
      conv_lhs => rw [same, ← List.cons_append, ← List.replicate_succ]
      rw [List.reverse_append, List.reverse_replicate, List.append_assoc]
    rw [whole]
    exact run.append later

end

/-! ### Zeros at the end -/

section
variable {least : Nat} {lengths : List Nat}

theorem eq_dropZeros_append (least : Nat) (lengths : List Nat) :
    ∃ n : Nat, lengths = dropZeros least lengths ++ List.replicate n 0 := by
  have parts := congrArg List.reverse (List.takeWhile_append_dropWhile (p := (· == 0)) (l := lengths.reverse))
  have zeros : ∀ l ∈ lengths.reverse.takeWhile (· == 0), l = 0 :=
    fun l member => eq_of_beq (List.all_eq_true.mp List.all_takeWhile l member)
  rw [List.reverse_append, List.reverse_reverse] at parts
  rw [dropZeros]
  generalize lengths.reverse.takeWhile (· == 0) = last at parts zeros
  generalize lengths.reverse.dropWhile (· == 0) = kept at parts
  refine ⟨(lengths.drop (max least kept.length)).length, ?_⟩
  have dropped : lengths.drop (max least kept.length) = List.replicate (lengths.drop (max least kept.length)).length 0 := by
    refine List.eq_replicate_iff.mpr ⟨rfl, fun l member => zeros l ?_⟩
    rw [← parts, List.drop_append, List.drop_eq_nil_of_le (by rw [List.length_reverse]; exact Nat.le_max_right _ _),
      List.nil_append] at member
    exact List.mem_reverse.mp (List.mem_of_mem_drop member)
  rw [← dropped, List.take_append_drop]

theorem symbolsOfLength_append_replicate (lengths : List Nat) (n k : Nat) :
    symbolsOfLength (lengths ++ List.replicate n 0) (k + 1) = symbolsOfLength lengths (k + 1) := by
  have none : ((List.replicate n 0).zipIdx (0 + lengths.length)).filterMap
      (fun e => if e.1 = k + 1 then some e.2 else none) = [] := by
    refine List.filterMap_eq_nil_iff.mpr fun e member => if_neg ?_
    rw [List.eq_of_mem_replicate (List.fst_mem_of_mem_zipIdx member)]
    exact (Nat.succ_ne_zero k).symm
  rw [symbolsOfLength, List.zipIdx_append, List.filterMap_append, none, List.append_nil]
  rfl

/-- Symbols without a word at the end of a code do not matter. -/
theorem ofLengths_dropZeros (least : Nat) (lengths : List Nat) :
    Huffman.ofLengths (dropZeros least lengths) = Huffman.ofLengths lengths := by
  obtain ⟨n, whole⟩ := eq_dropZeros_append least lengths
  have positive : ∀ k ∈ wordLengths, ∃ d, k = d + 1 := by simp [wordLengths]
  conv_rhs => rw [whole]
  simp only [Huffman.ofLengths, Huffman.mk.injEq]
  constructor
  · refine List.map_congr_left fun k member => ?_
    obtain ⟨d, rfl⟩ := positive k member
    simp [List.count_replicate]
  · rw [List.flatMap_def, List.flatMap_def]
    congr 1
    refine List.map_congr_left fun k member => ?_
    obtain ⟨d, rfl⟩ := positive k member
    exact (symbolsOfLength_append_replicate _ n d).symm

/-- What is known of lengths where zeros at the end are left out. -/
structure Trimmed (least : Nat) (lengths kept : List Nat) : Prop where
  most : kept.length ≤ lengths.length
  least : least ≤ kept.length
  front : ∀ i < kept.length, kept[i]? = lengths[i]?
  code : Huffman.ofLengths kept = Huffman.ofLengths lengths

theorem trimmed_dropZeros (enough : least ≤ lengths.length) : Trimmed least lengths (dropZeros least lengths) := by
  refine ⟨List.length_take_le' _ _, ?_, fun i inside => ?_, ofLengths_dropZeros least lengths⟩
  · rw [dropZeros, List.length_take]
    exact Nat.le_min.mpr ⟨Nat.le_max_left _ _, enough⟩
  · rw [dropZeros, List.length_take] at inside
    exact List.getElem?_take_of_lt (by omega)

end

/-! ### Reading codes -/

theorem readTriples_bitsOfNat {lengths : List Nat} (small : ∀ l ∈ lengths, l < 2 ^ 3) (rest : List Bool) :
    readTriples lengths.length (lengths.flatMap (bitsOfNat 3) ++ rest) = some (lengths, rest) := by
  induction lengths with
  | nil => rfl
  | cons l lengths ih =>
    obtain ⟨here, others⟩ := List.forall_mem_cons.mp small
    rw [List.flatMap_cons, List.append_assoc, List.length_cons, readTriples, readBits_bitsOfNat here]
    simp only [Option.bind_eq_bind, Option.bind_some, ih others, Option.map_some]

/-- Entries at the end that are zero may be missing. -/
theorem lookup_zip_eq {g : Nat → Nat} {keys values : List Nat} {n s : Nat} (entries : keys.map g = values ++ List.replicate n 0)
    (member : s ∈ keys) : ((keys.zip values).lookup s).getD 0 = g s := by
  induction keys generalizing values with
  | nil => cases member
  | cons key keys ih =>
    cases values with
    | nil =>
      have zero : g s ∈ List.replicate n 0 := by
        rw [← List.nil_append (List.replicate n 0), ← entries]
        exact List.mem_map_of_mem member
      rw [List.eq_of_mem_replicate zero]
      rfl
    | cons value values =>
      rw [List.map_cons, List.cons_append, List.cons.injEq] at entries
      obtain ⟨first, others⟩ := entries
      rw [List.zip_cons_cons]
      by_cases same : s = key
      · rw [same, List.lookup_cons_self, Option.getD_some, first]
      · have other : (s == key) = false := beq_eq_false_iff_ne.mpr same
        rw [List.lookup_cons, other]
        exact ih others ((List.mem_cons.mp member).resolve_left same)

section
variable {code : Huffman} {words : Array (List Bool)} {read final : List Nat} {runs : List Symbol} {fuel wanted : Nat}

/-- One symbol is read before there are as many lengths as wanted. -/
theorem readLengths_symbol {r : Symbol} (fewer : read.length < wanted) (coded : code.Reads words r.code) (rest : List Bool) :
    readLengths code wanted (fuel + 1) read (symbolBits words r ++ rest) =
      if r.code < 16 then readLengths code wanted fuel (r.code :: read) (bitsOfNat r.width r.extra ++ rest)
      else if r.code = 16 then read.head?.bind fun last => (readBits 2 (bitsOfNat r.width r.extra ++ rest)).bind fun (n, bits) =>
        readLengths code wanted fuel (List.replicate (3 + n) last ++ read) bits
      else if r.code = 17 then (readBits 3 (bitsOfNat r.width r.extra ++ rest)).bind fun (n, bits) =>
        readLengths code wanted fuel (List.replicate (3 + n) 0 ++ read) bits
      else (readBits 7 (bitsOfNat r.width r.extra ++ rest)).bind fun (n, bits) =>
        readLengths code wanted fuel (List.replicate (11 + n) 0 ++ read) bits := by
  rw [symbolBits, List.append_assoc, readLengths, if_neg (Nat.ne_of_lt fewer), if_neg (Nat.not_lt.mpr (Nat.le_of_lt fewer)), coded]
  rfl

theorem readLengths_runs (makes : Runs read runs final) (coded : ∀ r ∈ runs, code.Reads words r.code) (enough : runs.length < fuel)
    (rest : List Bool) :
    readLengths code final.length fuel read (runs.flatMap (symbolBits words) ++ rest) = some (final.reverse, rest) := by
  obtain ⟨fuel, rfl⟩ := Nat.exists_eq_succ_of_ne_zero (Nat.ne_zero_of_lt enough)
  have fewer {r : Symbol} {runs : List Symbol} {read final : List Nat} (makes : Runs read (r :: runs) final) :
      read.length < final.length := by
    have more := makes.length_le
    rw [List.length_cons] at more
    omega
  induction makes generalizing fuel with
  | done =>
    rw [readLengths, if_pos rfl]
    rfl
  | one short onward ih =>
    obtain ⟨here, others⟩ := List.forall_mem_cons.mp coded
    obtain ⟨fuel, rfl⟩ := Nat.exists_eq_succ_of_ne_zero (Nat.ne_zero_of_lt (Nat.lt_of_succ_lt_succ enough))
    rw [List.flatMap_cons, List.append_assoc, readLengths_symbol (fewer (.one short onward)) here, if_pos short]
    exact ih others _ (Nat.lt_of_succ_lt_succ enough)
  | again few onward ih =>
    obtain ⟨here, others⟩ := List.forall_mem_cons.mp coded
    obtain ⟨fuel, rfl⟩ := Nat.exists_eq_succ_of_ne_zero (Nat.ne_zero_of_lt (Nat.lt_of_succ_lt_succ enough))
    rw [List.flatMap_cons, List.append_assoc, readLengths_symbol (fewer (.again few onward)) here, if_neg (by simp), if_pos rfl,
      readBits_bitsOfNat few]
    exact ih others _ (Nat.lt_of_succ_lt_succ enough)
  | zeros few onward ih =>
    obtain ⟨here, others⟩ := List.forall_mem_cons.mp coded
    obtain ⟨fuel, rfl⟩ := Nat.exists_eq_succ_of_ne_zero (Nat.ne_zero_of_lt (Nat.lt_of_succ_lt_succ enough))
    rw [List.flatMap_cons, List.append_assoc, readLengths_symbol (fewer (.zeros few onward)) here, if_neg (by simp),
      if_neg (by simp), if_pos rfl, readBits_bitsOfNat few]
    exact ih others _ (Nat.lt_of_succ_lt_succ enough)
  | manyZeros few onward ih =>
    obtain ⟨here, others⟩ := List.forall_mem_cons.mp coded
    obtain ⟨fuel, rfl⟩ := Nat.exists_eq_succ_of_ne_zero (Nat.ne_zero_of_lt (Nat.lt_of_succ_lt_succ enough))
    rw [List.flatMap_cons, List.append_assoc, readLengths_symbol (fewer (.manyZeros few onward)) here, if_neg (by simp),
      if_neg (by simp), if_neg (by simp), readBits_bitsOfNat few]
    exact ih others _ (Nat.lt_of_succ_lt_succ enough)

end

theorem map_getD_range (lengths : List Nat) : (List.range lengths.length).map (lengths.getD · 0) = lengths := by
  refine List.ext_getElem (by simp) fun i _ inside => ?_
  simp [List.getD_eq_getElem?_getD, inside]

/-- The code for lengths is known from the order in which its own lengths are written. -/
theorem map_lookup_lengthOrder {lengths : List Nat} (whole : lengths.length = 19) (least : Nat) :
    ((List.range 19).map fun s =>
      ((lengthOrder.zip (dropZeros least (lengthOrder.map fun s => lengths.getD s 0))).lookup s).getD 0) = lengths := by
  obtain ⟨n, entries⟩ := eq_dropZeros_append least (lengthOrder.map fun s => lengths.getD s 0)
  have listed : ∀ s < 19, s ∈ lengthOrder := by decide
  refine (List.map_congr_left fun s member => lookup_zip_eq entries (listed s (List.mem_range.mp member))).trans ?_
  rw [← whole]
  exact map_getD_range lengths

/-- The lengths of the code for runs. -/
def runLengths (runs : List Symbol) : List Nat := codeLengths 7 (frequencies 19 (runs.map Symbol.code))

section
variable {read final : List Nat} {runs : List Symbol}

theorem complete_runLengths (runs : List Symbol) : Complete 7 (frequencies 19 (runs.map Symbol.code)) (runLengths runs) :=
  codeLengths_complete (by rw [length_frequencies]; decide) (by rw [length_frequencies]; decide)

theorem length_runLengths (runs : List Symbol) : (runLengths runs).length = 19 :=
  (complete_runLengths runs).length.trans (length_frequencies 19 _)

theorem isComplete_runLengths (runs : List Symbol) : (Huffman.ofLengths (runLengths runs)).isComplete = true := by
  rw [Huffman.isComplete, (complete_runLengths runs).leftOver (by decide)]
  rfl

theorem reads_runLengths (makes : Runs read runs final) :
    ∀ r ∈ runs, (Huffman.ofLengths (runLengths runs)).Reads (wordsOf (runLengths runs)) r.code := fun _ member =>
  (complete_runLengths runs).reads (by decide)
    (frequencies_ne_zero (List.forall_mem_map.mpr makes.code_lt) (List.mem_map_of_mem member))

/-- The lengths of the code for runs, as they are written. -/
def runTriples (runs : List Symbol) : List Nat := dropZeros 4 (lengthOrder.map fun s => (runLengths runs).getD s 0)

theorem runTriples_small (runs : List Symbol) : ∀ l ∈ runTriples runs, l < 2 ^ 3 := by
  intro l member
  obtain ⟨s, _, rfl⟩ := List.mem_map.mp (List.mem_of_mem_take member)
  rw [List.getD_eq_getElem?_getD]
  cases here : (runLengths runs)[s]? with
  | none => decide
  | some l => exact Nat.lt_succ_of_le ((complete_runLengths runs).short l (List.mem_of_getElem? here))

/-- The runs that stand at the beginning of a block. -/
def codeRuns (lengths places : List Nat) : List Symbol :=
  lengthRuns none (dropZeros 257 lengths) ++ lengthRuns none (dropZeros 1 places)

theorem codeBits_eq (lengths places : List Nat) : codeBits lengths places =
    bitsOfNat 5 ((dropZeros 257 lengths).length - 257) ++ bitsOfNat 5 ((dropZeros 1 places).length - 1) ++
      bitsOfNat 4 ((runTriples (codeRuns lengths places)).length - 4) ++
        (runTriples (codeRuns lengths places)).flatMap (bitsOfNat 3) ++
          (codeRuns lengths places).flatMap (symbolBits (wordsOf (runLengths (codeRuns lengths places)))) := rfl

/-- The lengths of both codes are read as they were written, without what is left out at their ends. -/
theorem readLengths_codeRuns {lengths places : List Nat} (short : ∀ l ∈ lengths, l ≤ longestWord)
    (shortPlaces : ∀ l ∈ places, l ≤ longestWord) (rest : List Bool) :
    readLengths (Huffman.ofLengths (runLengths (codeRuns lengths places)))
      ((dropZeros 257 lengths).length + (dropZeros 1 places).length)
        ((dropZeros 257 lengths).length + (dropZeros 1 places).length + 1) []
          ((codeRuns lengths places).flatMap (symbolBits (wordsOf (runLengths (codeRuns lengths places)))) ++ rest) =
            some (dropZeros 257 lengths ++ dropZeros 1 places, rest) := by
  have makes : Runs [] (codeRuns lengths places) ((dropZeros 1 places).reverse ++ ((dropZeros 257 lengths).reverse ++ [])) :=
    (runs_lengthRuns (fun l member => Nat.lt_succ_of_le (short l (List.mem_of_mem_take member))) (.inl rfl)).append
      (runs_lengthRuns (fun l member => Nat.lt_succ_of_le (shortPlaces l (List.mem_of_mem_take member))) (.inl rfl))
  rw [List.append_nil, ← List.reverse_append] at makes
  have enough : (codeRuns lengths places).length < (dropZeros 257 lengths).length + (dropZeros 1 places).length + 1 := by
    have added := makes.length_le
    rw [List.length_reverse, List.length_append, List.length_nil] at added
    omega
  have made := readLengths_runs makes (reads_runLengths makes) enough rest
  rwa [List.length_reverse, List.length_append, List.reverse_reverse] at made

theorem Complete.isUsable {weights lengths : List Nat} (complete : Complete longestWord weights lengths) :
    (Huffman.ofLengths lengths).isUsable = true := by
  rw [Huffman.isUsable, complete.leftOver (Nat.le_refl _)]
  rfl

/-- The codes of a block are read as they were written, and what is left out at their ends is not missed. -/
theorem readCodes_codeBits {weights others lengths places : List Nat} (symbols : Complete longestWord weights lengths)
    (distances : Complete longestWord others places) (many : lengths.length = 286) (few : places.length = 30)
    (ends : lengths.getD endOfBlock 0 ≠ 0) (rest : List Bool) :
    readCodes (codeBits lengths places ++ rest) = some ((Huffman.ofLengths lengths, Huffman.ofLengths places), rest) := by
  have read := readLengths_codeRuns symbols.short distances.short rest
  obtain ⟨most, least, front, code⟩ : Trimmed 257 lengths (dropZeros 257 lengths) := trimmed_dropZeros (by rw [many]; decide)
  obtain ⟨mostPlaces, leastPlaces, _, codePlaces⟩ : Trimmed 1 places (dropZeros 1 places) := trimmed_dropZeros (by rw [few]; decide)
  rw [codeBits_eq]
  generalize codeRuns lengths places = runs at read
  generalize dropZeros 257 lengths = kept at read most least front code
  generalize dropZeros 1 places = keptPlaces at read mostPlaces leastPlaces codePlaces
  obtain ⟨mostTriples, leastTriples, _, _⟩ : Trimmed 4 (lengthOrder.map fun s => (runLengths runs).getD s 0) (runTriples runs) :=
    trimmed_dropZeros (by rw [List.length_map]; decide)
  have listed : ((List.range 19).map fun s => ((lengthOrder.zip (runTriples runs)).lookup s).getD 0) = runLengths runs :=
    map_lookup_lengthOrder (length_runLengths runs) 4
  have inside : endOfBlock < kept.length := least
  have ended : (kept ++ keptPlaces)[endOfBlock]? ≠ some 0 := by
    rw [List.getElem?_append_left inside, front endOfBlock inside]
    intro none
    rw [List.getD_eq_getElem?_getD, none] at ends
    exact ends rfl
  have order : lengthOrder.length = 19 := rfl
  rw [many] at most
  rw [few] at mostPlaces
  rw [List.length_map, order] at mostTriples
  simp only [List.append_assoc]
  rw [readCodes, readBits_bitsOfNat (by omega)]
  simp only [Option.bind_eq_bind, Option.bind_some]
  rw [readBits_bitsOfNat (by omega)]
  simp only [Option.bind_some]
  rw [readBits_bitsOfNat (by omega)]
  simp only [Option.bind_some]
  rw [Nat.sub_add_cancel least, Nat.sub_add_cancel leastPlaces, Nat.sub_add_cancel leastTriples, if_neg (by omega),
    readTriples_bitsOfNat (runTriples_small runs)]
  simp only [Option.bind_some]
  rw [listed, isComplete_runLengths, if_neg (by decide), read, Option.bind_some, if_neg ended, List.take_left, List.drop_left, code,
    codePlaces, symbols.isUsable, distances.isUsable]
  rfl

end

end WorkflowCompiler.Codec
