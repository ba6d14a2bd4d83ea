import WorkflowCompiler.Proofs.Codec.Forest
import WorkflowCompiler.Proofs.Codec.Huffman

/-!
Lengths that make a code (`codeLengths_complete`). Where a tree comes apart its two parts
take up as much as it did, until they are as long as they may be: cutting them down takes
up half a word too much for each (`Cut.fork`). What is too much is given back by trades
(`Cut.trade`), which a word shorter than the limit is there for as long as the symbols are
few enough (`Cut.exists_shorter`). The lengths that result are dealt out to the symbols.
-/
namespace WorkflowCompiler.Codec

/-! ### Cutting and trading -/

/-- How many words of the greatest length begin with words of the given lengths, where the empty word counts. -/
def mass (limit : Nat) (lengths : List Nat) : Nat := (lengths.map fun l => 2 ^ (limit - l)).sum

theorem mass_cons (limit l : Nat) (lengths : List Nat) : mass limit (l :: lengths) = 2 ^ (limit - l) + mass limit lengths := rfl

theorem two_pow_sub {l limit : Nat} (shorter : l < limit) : 2 ^ (limit - l) = 2 * 2 ^ (limit - (l + 1)) := by
  rw [← Nat.pow_succ', Nat.succ_eq_add_one]
  congr 1
  omega

/-- Lengths some of which are cut down to the limit, and what is too much, in halves of the longest words. -/
structure Cut (limit : Nat) (lengths : List Nat) (cut : Nat) : Prop where
  short : ∀ l ∈ lengths, l ≤ limit
  whole : 2 * mass limit lengths = 2 * 2 ^ limit + cut
  longest : cut ≤ 2 * lengths.count limit

section
variable {limit l cut : Nat} {lengths order rest : List Nat}

theorem Cut.root (limit : Nat) : Cut limit [0] 0 := by
  refine ⟨fun l member => ?_, rfl, Nat.zero_le _⟩
  rw [List.mem_singleton.mp member]
  exact Nat.zero_le limit

theorem Cut.reorder (cuts : Cut limit lengths cut) (same : order.Perm lengths) : Cut limit order cut := by
  refine ⟨fun l member => cuts.short l (same.mem_iff.mp member), ?_, ?_⟩
  · rw [mass, (same.map _).sum_nat]
    exact cuts.whole
  · rw [same.count_eq]
    exact cuts.longest

/-- A tree comes apart. -/
theorem Cut.fork (cuts : Cut limit (l :: rest) cut) :
    Cut limit (min limit (l + 1) :: min limit (l + 1) :: rest) (cut + if l = limit then 2 else 0) := by
  obtain ⟨short, whole, longest⟩ := cuts
  obtain ⟨here, others⟩ := List.forall_mem_cons.mp short
  refine ⟨?_, ?_, ?_⟩
  · simp only [List.forall_mem_cons]
    exact ⟨Nat.min_le_left _ _, Nat.min_le_left _ _, others⟩
  · simp only [mass_cons] at whole ⊢
    by_cases long : l = limit
    · subst long
      rw [if_pos rfl, Nat.min_eq_left (Nat.le_succ l)]
      rw [Nat.sub_self, Nat.pow_zero] at whole ⊢
      omega
    · have half := two_pow_sub (Nat.lt_of_le_of_ne here long)
      rw [if_neg long, Nat.min_eq_right (by omega)]
      omega
  · simp only [List.count_cons, beq_iff_eq] at longest ⊢
    by_cases long : l = limit
    · subst long
      simp only [if_pos, Nat.min_eq_left (Nat.le_succ l)] at longest ⊢
      omega
    · rw [if_neg long] at longest ⊢
      omega

/-- A word of the greatest length is given back: what is left of its place goes to a shorter word, which gets two longer ones. -/
theorem Cut.trade (cuts : Cut limit (l :: limit :: rest) (cut + 2)) (shorter : l < limit) :
    Cut limit ((l + 1) :: (l + 1) :: rest) cut := by
  obtain ⟨short, whole, longest⟩ := cuts
  simp only [List.forall_mem_cons] at short
  refine ⟨?_, ?_, ?_⟩
  · simp only [List.forall_mem_cons]
    exact ⟨shorter, shorter, short.2.2⟩
  · have half := two_pow_sub shorter
    simp only [mass_cons, Nat.sub_self, Nat.pow_zero] at whole ⊢
    omega
  · simp only [List.count_cons, beq_iff_eq, if_neg (Nat.ne_of_lt shorter), if_true] at longest ⊢
    omega

theorem mass_of_longest (all : ∀ l ∈ lengths, limit ≤ l) : mass limit lengths = lengths.length := by
  induction lengths with
  | nil => rfl
  | cons l lengths ih =>
    obtain ⟨here, others⟩ := List.forall_mem_cons.mp all
    rw [mass_cons, ih others, Nat.sub_eq_zero_of_le here, Nat.pow_zero, List.length_cons, Nat.add_comm]

/-- Few words of the greatest length do not take up too much. -/
theorem Cut.exists_shorter (cuts : Cut limit lengths cut) (few : lengths.length ≤ 2 ^ limit) (some : 0 < cut) :
    ∃ l ∈ lengths, l < limit := by
  by_contra none
  have all : ∀ l ∈ lengths, limit ≤ l := fun l member => Nat.le_of_not_lt fun shorter => none ⟨l, member, shorter⟩
  have whole := cuts.whole
  rw [mass_of_longest all] at whole
  omega

end

/-! ### Making room -/

/-- The counts are those of the lengths. -/
structure Counted (limit : Nat) (counts : Array Nat) (lengths : List Nat) : Prop where
  size : counts.size = limit + 1
  entry : ∀ l ≤ limit, counts.getD l 0 = lengths.count l

section
variable {limit cut : Nat} {counts : Array Nat} {lengths : List Nat}

theorem lengthBelow_spec {n l : Nat} (below : l < n) (some : counts.getD l 0 ≠ 0) :
    lengthBelow counts n < n ∧ counts.getD (lengthBelow counts n) 0 ≠ 0 := by
  induction n with
  | zero => cases below
  | succ n ih =>
    rw [lengthBelow]
    by_cases none : counts.getD n 0 = 0
    · have lower : l < n := Nat.lt_of_le_of_ne (Nat.le_of_lt_succ below) fun same => some (same ▸ none)
      obtain ⟨inside, found⟩ := ih lower
      rw [if_pos none]
      exact ⟨Nat.lt_succ_of_lt inside, found⟩
    · rw [if_neg none]
      exact ⟨Nat.lt_succ_self n, none⟩

/-- The counts after a trade. -/
theorem Counted.trade {l : Nat} {rest : List Nat} (counted : Counted limit counts lengths) (shorter : l < limit)
    (order : lengths.Perm (l :: limit :: rest)) :
    Counted limit (((counts.modify l (· - 1)).modify (l + 1) (· + 2)).modify limit (· - 1)) ((l + 1) :: (l + 1) :: rest) := by
  have size := counted.size
  refine ⟨by rw [Array.size_modify, Array.size_modify, Array.size_modify, size], fun k within => ?_⟩
  have before := counted.entry k within
  rw [order.count_eq] at before
  rw [getD_modify (by simp only [Array.size_modify]; omega), getD_modify (by simp only [Array.size_modify]; omega),
    getD_modify (by omega), before]
  simp only [List.count_cons, beq_iff_eq]
  split_ifs <;> omega

theorem makeRoom_trades {fuel : Nat} (counted : Counted limit counts lengths) (cuts : Cut limit lengths cut)
    (few : lengths.length ≤ 2 ^ limit) (coded : 0 ∉ lengths) (enough : cut ≤ fuel) :
    ∃ traded : List Nat, Counted limit (makeRoom limit fuel cut counts) traded ∧ Cut limit traded 0 ∧
      traded.length = lengths.length ∧ 0 ∉ traded := by
  induction fuel generalizing cut counts lengths with
  | zero =>
    obtain rfl := Nat.le_zero.mp enough
    exact ⟨lengths, counted, cuts, rfl, coded⟩
  | succ fuel ih =>
    cases cut with
    | zero => exact ⟨lengths, counted, cuts, rfl, coded⟩
    | succ cut =>
      -- what is cut is even, so it is at least two
      obtain ⟨cut, rfl⟩ : ∃ less, cut = less + 1 := by
        have whole := cuts.whole
        exact ⟨cut - 1, by omega⟩
      obtain ⟨k, member, lower⟩ := cuts.exists_shorter few (Nat.succ_pos _)
      have present : counts.getD k 0 ≠ 0 := by
        rw [counted.entry k (Nat.le_of_lt lower)]
        exact Nat.ne_of_gt (List.count_pos_iff.mpr member)
      obtain ⟨shorter, found⟩ := lengthBelow_spec lower present
      rw [makeRoom]
      generalize lengthBelow counts limit = l at shorter found
      have here : l ∈ lengths := by
        rw [counted.entry l (Nat.le_of_lt shorter)] at found
        exact List.count_pos_iff.mp (Nat.pos_of_ne_zero found)
      have there : limit ∈ lengths.erase l := by
        have longest := cuts.longest
        rw [List.mem_erase_of_ne (Nat.ne_of_gt shorter)]
        exact List.count_pos_iff.mp (by omega)
      have order := (List.perm_cons_erase here).trans (.cons l (List.perm_cons_erase there))
      generalize (lengths.erase l).erase limit = rest at order
      have same := order.length_eq
      simp only [List.length_cons] at same
      have coded' : 0 ∉ (l + 1) :: (l + 1) :: rest := by
        rw [order.mem_iff] at coded
        simp only [List.mem_cons, not_or] at coded ⊢
        exact ⟨(Nat.succ_ne_zero l).symm, (Nat.succ_ne_zero l).symm, coded.2.2⟩
      obtain ⟨traded, last⟩ := ih (counted.trade shorter order) ((cuts.reorder order.symm).trade shorter)
        (by simp only [List.length_cons]; omega) coded' (by omega)
      rw [same]
      exact ⟨traded, last⟩

end

/-! ### The lengths of trees -/

/-- The length of a tree, as `cutLengths` takes it. -/
def cutLength (limit : Nat) (parent : Array Nat) (r : Array Nat × Nat) (tree : Nat) : Array Nat × Nat :=
  let length := r.1.getD (parent.getD tree 0) 0 + 1
  if limit < length then (r.1.setIfInBounds tree limit, r.2 + 1) else (r.1.setIfInBounds tree length, r.2)

theorem cutLengths_eq (limit : Nat) (parent : Array Nat) (trees : List Nat) (r : Array Nat × Nat) :
    cutLengths limit parent trees r = trees.foldl (cutLength limit parent) r := by
  induction trees generalizing r with
  | nil => rfl
  | cons tree trees ih =>
    rw [List.foldl_cons, ← ih, cutLengths, cutLength]
    split
    · rfl
    · rfl

section
variable {limit cut l tree : Nat} {parent lengths : Array Nat} {leaves frontier joined trees : List Nat}

theorem cutLength_eq (above : lengths.getD (parent.getD tree 0) 0 = l) (short : l ≤ limit) :
    cutLength limit parent (lengths, cut) tree =
      (lengths.setIfInBounds tree (min limit (l + 1)), cut + if l = limit then 1 else 0) := by
  simp only [cutLength, above]
  by_cases long : l = limit
  · subst long
    rw [if_pos (Nat.lt_succ_self l), if_pos rfl, Nat.min_eq_left (Nat.le_succ l)]
  · rw [if_neg (by omega), if_neg long, Nat.min_eq_right (by omega)]
    rfl

/-- Cut down or not, a tree has a length. -/
theorem cutLength_place (limit : Nat) (parent : Array Nat) (r : Array Nat × Nat) (tree : Nat) :
    ∃ l : Nat, (0 < limit → 0 < l) ∧ (cutLength limit parent r tree).1 = r.1.setIfInBounds tree l := by
  unfold cutLength
  dsimp only
  split
  · exact ⟨limit, id, rfl⟩
  · exact ⟨_, fun _ => Nat.succ_pos _, rfl⟩

theorem getD_foldl_cutLength {r : Array Nat × Nat} (inside : ∀ tree ∈ trees, tree < r.1.size) (other : tree ∉ trees) :
    (trees.foldl (cutLength limit parent) r).1.getD tree 0 = r.1.getD tree 0 := by
  induction trees generalizing r with
  | nil => rfl
  | cons first trees ih =>
    obtain ⟨here, others⟩ := List.forall_mem_cons.mp inside
    obtain ⟨l, _, placed⟩ := cutLength_place limit parent r first
    have kept : ∀ tree ∈ trees, tree < (cutLength limit parent r first).1.size := by
      rw [placed, Array.size_setIfInBounds]
      exact others
    rw [List.foldl_cons, ih kept (fun member => other (List.mem_cons_of_mem _ member)), placed, getD_setIfInBounds here,
      if_neg (List.ne_of_not_mem_cons other)]

theorem getD_foldl_cutLength_pos {r : Array Nat × Nat} (inside : ∀ tree ∈ trees, tree < r.1.size) (some : 0 < limit)
    (member : tree ∈ trees) : 0 < (trees.foldl (cutLength limit parent) r).1.getD tree 0 := by
  induction trees generalizing r with
  | nil => cases member
  | cons first trees ih =>
    obtain ⟨here, others⟩ := List.forall_mem_cons.mp inside
    obtain ⟨l, long, placed⟩ := cutLength_place limit parent r first
    have kept : ∀ tree ∈ trees, tree < (cutLength limit parent r first).1.size := by
      rw [placed, Array.size_setIfInBounds]
      exact others
    rw [List.foldl_cons]
    by_cases later : tree ∈ trees
    · exact ih kept later
    · have same : tree = first := (List.mem_cons.mp member).resolve_right later
      rw [getD_foldl_cutLength kept later, placed, getD_setIfInBounds here, if_pos same]
      exact long some

/-- The lengths of the leaves come from those of the frontier. -/
theorem Cut.unjoins (unjoins : Forest.Unjoins parent leaves frontier joined) (distinct : (frontier ++ joined).Nodup)
    (inside : ∀ tree ∈ joined, tree < lengths.size) (cuts : Cut limit (frontier.map (lengths.getD · 0)) cut) :
    Cut limit (leaves.map ((joined.foldl (cutLength limit parent) (lengths, cut)).1.getD · 0))
      (joined.foldl (cutLength limit parent) (lengths, cut)).2 := by
  induction unjoins generalizing lengths cut with
  | done apart => exact cuts.reorder (apart.symm.map _)
  | @pair frontier rest joined node a b chosen first second _ ih =>
    have trees := (chosen.append_right _).nodup_iff.mp distinct
    have known : Cut limit (lengths.getD node 0 :: rest.map (lengths.getD · 0)) cut :=
      cuts.reorder (chosen.symm.map (lengths.getD · 0))
    generalize shape : lengths.getD node 0 = l at known
    have short : l ≤ limit := known.short l List.mem_cons_self
    obtain ⟨insideB, insideA, others⟩ : _ ∧ _ ∧ _ := by simpa only [List.forall_mem_cons] using inside
    obtain ⟨notB, apart⟩ : node ≠ b ∧ (a :: b :: rest ++ joined).Nodup := by grind
    have once : cutLength limit parent (lengths, cut) b =
        (lengths.setIfInBounds b (min limit (l + 1)), cut + if l = limit then 1 else 0) := cutLength_eq (second ▸ shape) short
    have above : (lengths.setIfInBounds b (min limit (l + 1))).getD (parent.getD a 0) 0 = l := by
      rw [first, getD_setIfInBounds insideB, if_neg notB, shape]
    have twice : (cut + if l = limit then 1 else 0) + (if l = limit then 1 else 0) = cut + if l = limit then 2 else 0 := by
      split
      · rfl
      · rfl
    rw [List.foldl_cons, List.foldl_cons, once, cutLength_eq above short, twice]
    refine ih apart (by simpa only [Array.size_setIfInBounds] using others) ?_
    have after {tree : Nat} : ((lengths.setIfInBounds b (min limit (l + 1))).setIfInBounds a (min limit (l + 1))).getD tree 0 =
        if tree = a then min limit (l + 1) else if tree = b then min limit (l + 1) else lengths.getD tree 0 := by
      rw [getD_setIfInBounds (by rwa [Array.size_setIfInBounds]), getD_setIfInBounds insideB]
    have kept : rest.map (((lengths.setIfInBounds b (min limit (l + 1))).setIfInBounds a (min limit (l + 1))).getD · 0) =
        rest.map (lengths.getD · 0) := by
      refine List.map_congr_left fun tree member => ?_
      rw [after, if_neg (by grind), if_neg (by grind)]
    rw [List.map_cons, List.map_cons, kept, after, if_pos rfl, after, if_pos rfl, ite_self]
    exact known.fork

end

/-! ### Dealing out -/

section
variable {limit : Nat} {counts : Array Nat} {lengths keys values : List Nat}

theorem count_flatMap_replicate (counts : Array Nat) (n l : Nat) :
    ((List.range n).reverse.flatMap fun k => List.replicate (counts.getD k 0) k).count l =
      if l < n then counts.getD l 0 else 0 := by
  induction n with
  | zero => rfl
  | succ n ih =>
    rw [List.range_succ, List.reverse_append, List.reverse_singleton, List.singleton_append, List.flatMap_cons, List.count_append,
      ih, List.count_replicate]
    by_cases here : n = l
    · subst here
      simp
    · rw [if_neg (by simpa using here), Nat.zero_add]
      exact if_congr (by omega) rfl rfl

theorem Counted.dealt (counted : Counted limit counts lengths) (short : ∀ l ∈ lengths, l ≤ limit) :
    ((List.range (limit + 1)).reverse.flatMap fun k => List.replicate (counts.getD k 0) k).Perm lengths := by
  refine List.perm_iff_count.mpr fun l => ?_
  rw [count_flatMap_replicate]
  by_cases within : l < limit + 1
  · rw [if_pos within, counted.entry l (Nat.le_of_lt_succ within)]
  · rw [if_neg within, List.count_eq_zero_of_not_mem fun member => within (Nat.lt_succ_of_le (short l member))]

theorem map_lookup_zip (distinct : keys.Nodup) (same : keys.length = values.length) :
    keys.map (fun k => ((keys.zip values).lookup k).getD 0) = values := by
  induction keys generalizing values with
  | nil => exact (List.length_eq_zero_iff.mp same.symm).symm
  | cons key keys ih =>
    cases values with
    | nil => cases same
    | cons value values =>
      obtain ⟨fresh, others⟩ := List.nodup_cons.mp distinct
      have rest : keys.map (fun k => (((key :: keys).zip (value :: values)).lookup k).getD 0) = values := by
        refine (List.map_congr_left fun k member => ?_).trans (ih others (Nat.succ.inj same))
        have other : (k == key) = false := by
          rw [beq_eq_false_iff_ne]
          exact ne_of_mem_of_not_mem member fresh
        rw [List.zip_cons_cons, List.lookup_cons, other]
      rw [List.map_cons, rest, List.zip_cons_cons, List.lookup_cons_self, Option.getD_some]

theorem lookup_zip_eq_none {k : Nat} (other : k ∉ keys) : (keys.zip values).lookup k = none := by
  refine List.lookup_eq_none_iff.mpr fun entry member => ?_
  rw [bne_iff_ne]
  exact (ne_of_mem_of_not_mem (List.of_mem_zip member).1 other).symm

end

/-! ### Used symbols -/

section
variable {weights : List Nat} {s : Nat}

theorem usedSymbols_eq (weights : List Nat) : usedSymbols weights = (weights.zipIdx.filter fun e => e.1 != 0).map Prod.snd := by
  rw [usedSymbols]
  induction weights.zipIdx with
  | nil => rfl
  | cons entry entries ih =>
    rw [List.filterMap_cons, List.filter_cons]
    by_cases none : entry.1 = 0
    · simpa [none] using ih
    · simpa [none] using ih

theorem nodup_usedSymbols (weights : List Nat) : (usedSymbols weights).Nodup := by
  rw [usedSymbols_eq]
  have all : (weights.zipIdx.map Prod.snd).Nodup := by
    rw [List.zipIdx_map_snd]
    exact List.nodup_range'
  exact (List.filter_sublist.map Prod.snd).nodup all

theorem mem_usedSymbols : s ∈ usedSymbols weights ↔ s < weights.length ∧ weights.getD s 0 ≠ 0 := by
  rw [usedSymbols_eq, List.mem_map]
  simp only [List.mem_filter, List.mem_zipIdx_iff_getElem?, bne_iff_ne, Prod.exists, List.getD_eq_getElem?_getD]
  constructor
  · rintro ⟨w, i, ⟨found, some⟩, rfl⟩
    obtain ⟨inside, rfl⟩ := List.getElem?_eq_some_iff.mp found
    rw [found]
    exact ⟨inside, some⟩
  · rintro ⟨inside, some⟩
    rw [List.getElem?_eq_getElem inside] at some
    exact ⟨weights[s], s, ⟨List.getElem?_eq_getElem inside, some⟩, rfl⟩

theorem length_usedSymbols (weights : List Nat) : (usedSymbols weights).length = weights.countP (· != 0) := by
  rw [usedSymbols_eq, List.length_map, ← List.countP_eq_length_filter]
  conv_rhs => rw [← List.zipIdx_map_fst 0 weights, List.countP_map]
  rfl

/-- The symbol that gets a weight when there are not two of them. -/
def nextUnused (weights : List Nat) : Nat :=
  match (weights.zipIdx.filter fun e => e.1 != 0).getLast? with
  | none => 0
  | some (_, last) => if last < 2 then last + 1 else 0

theorem nextUnused_spec (few : (usedSymbols weights).length < 2) (three : 3 ≤ weights.length) :
    nextUnused weights < weights.length ∧ nextUnused weights ∉ usedSymbols weights := by
  rw [usedSymbols_eq, List.length_map] at few
  rw [usedSymbols_eq, nextUnused]
  generalize weights.zipIdx.filter (fun e => e.1 != 0) = used at few
  match used with
  | [] => exact ⟨by simp only [List.getLast?_nil]; omega, List.not_mem_nil⟩
  | [(w, last)] =>
    simp only [List.getLast?_singleton, List.map_cons, List.map_nil, List.mem_singleton]
    split
    · omega
    · omega
  | _ :: _ :: _ =>
    simp only [List.length_cons] at few
    omega

/-- Weights some of which were made up. -/
structure Supplied (weights more : List Nat) : Prop where
  length : more.length = weights.length
  kept : ∀ s, weights.getD s 0 ≠ 0 → more.getD s 0 ≠ 0

theorem atLeastTwo_supplied {fuel : Nat} (three : 3 ≤ weights.length) (enough : 2 ≤ (usedSymbols weights).length + fuel) :
    Supplied weights (atLeastTwo fuel weights) ∧ 2 ≤ (usedSymbols (atLeastTwo fuel weights)).length := by
  induction fuel generalizing weights with
  | zero => exact ⟨⟨rfl, fun _ => id⟩, enough⟩
  | succ fuel ih =>
    have shape : atLeastTwo (fuel + 1) weights =
        if 2 ≤ (usedSymbols weights).length then weights else atLeastTwo fuel (weights.set (nextUnused weights) 1) := by
      rw [usedSymbols_eq, List.length_map]
      rfl
    rw [shape]
    by_cases two : 2 ≤ (usedSymbols weights).length
    · rw [if_pos two]
      exact ⟨⟨rfl, fun _ => id⟩, two⟩
    · obtain ⟨inside, unused⟩ := nextUnused_spec (Nat.lt_of_not_le two) three
      rw [if_neg two]
      generalize nextUnused weights = next at inside unused
      have none : weights[next] = 0 := by
        have spec := mt mem_usedSymbols.mpr unused
        rw [List.getD_eq_getElem?_getD, List.getElem?_eq_getElem inside, Option.getD_some] at spec
        exact Decidable.not_not.mp fun some => spec ⟨inside, some⟩
      have more : (usedSymbols (weights.set next 1)).length = (usedSymbols weights).length + 1 := by
        rw [length_usedSymbols, length_usedSymbols, List.countP_set inside, none]
        rfl
      obtain ⟨⟨length, kept⟩, used⟩ := @ih (weights.set next 1) (by rwa [List.length_set]) (by omega)
      refine ⟨⟨by rw [length, List.length_set], fun s some => kept s ?_⟩, used⟩
      rw [List.getD_eq_getElem?_getD, List.getElem?_set, if_pos inside]
      by_cases same : next = s
      · rw [if_pos same]
        exact Nat.one_ne_zero
      · rwa [if_neg same, ← List.getD_eq_getElem?_getD]

end

/-! ### Code lengths -/

/-- Lengths of a code that leaves nothing over and has a word for every symbol with a weight. -/
structure Complete (limit : Nat) (weights lengths : List Nat) : Prop where
  length : lengths.length = weights.length
  short : ∀ l ∈ lengths, l ≤ limit
  coded : ∀ s, weights.getD s 0 ≠ 0 → lengths.getD s 0 ≠ 0
  whole : share limit lengths = 2 ^ limit

section
variable {limit : Nat} {weights : List Nat}

theorem share_eq_mass {lengths : List Nat} (coded : 0 ∉ lengths) : share limit lengths = mass limit lengths := by
  rw [share, mass]
  congr 1
  refine List.map_congr_left fun l member => if_neg ?_
  rintro rfl
  exact coded member

theorem share_map {g : Nat → Nat} {n : Nat} {used : List Nat} (distinct : used.Nodup) (among : ∀ s ∈ used, s < n)
    (others : ∀ s < n, s ∉ used → g s = 0) : share limit ((List.range n).map g) = share limit (used.map g) := by
  have parts := List.filter_append_perm (fun s => decide (s ∈ used)) (List.range n)
  have inside : ((List.range n).filter fun s => decide (s ∈ used)).Perm used := by
    refine (List.perm_ext_iff_of_nodup (List.nodup_range.filter _) distinct).mpr fun s => ?_
    simp only [List.mem_filter, List.mem_range, decide_eq_true_eq]
    exact ⟨fun both => both.2, fun member => ⟨among s member, member⟩⟩
  have outside : (((List.range n).filter fun s => !decide (s ∈ used)).map g).map (fun l => if l = 0 then 0 else 2 ^ (limit - l)) =
      List.replicate ((List.range n).filter fun s => !decide (s ∈ used)).length 0 := by
    rw [List.map_map, List.map_eq_replicate_iff]
    intro s member
    obtain ⟨within, other⟩ : s < n ∧ s ∉ used := by simpa using member
    rw [Function.comp_apply, if_pos (others s within other)]
  have whole := (((parts.symm.trans (inside.append_right _)).map g).map fun l => if l = 0 then 0 else 2 ^ (limit - l)).sum_nat
  rw [List.map_append, List.map_append, List.sum_append, outside, List.sum_replicate] at whole
  simpa [share] using whole

theorem complete_of_cut {g : Nat → Nat} (cuts : Cut limit ((usedSymbols weights).map g) 0)
    (coded : ∀ s ∈ usedSymbols weights, g s ≠ 0) (others : ∀ s < weights.length, s ∉ usedSymbols weights → g s = 0) :
    Complete limit weights ((List.range weights.length).map g) := by
  refine ⟨by rw [List.length_map, List.length_range], fun l member => ?_, fun s some => ?_, ?_⟩
  · obtain ⟨s, within, rfl⟩ := List.mem_map.mp member
    by_cases used : s ∈ usedSymbols weights
    · exact cuts.short _ (List.mem_map_of_mem used)
    · rw [others s (List.mem_range.mp within) used]
      exact Nat.zero_le _
  · have inside : s < weights.length := by
      by_contra outside
      rw [List.getD_eq_getElem?_getD, List.getElem?_eq_none (Nat.le_of_not_lt outside)] at some
      exact some rfl
    have here : ((List.range weights.length).map g).getD s 0 = g s := by
      simp [List.getD_eq_getElem?_getD, inside]
    rw [here]
    exact coded s (mem_usedSymbols.mpr ⟨inside, some⟩)
  · have nonzero : 0 ∉ (usedSymbols weights).map g := by
      intro member
      obtain ⟨s, used, none⟩ := List.mem_map.mp member
      exact coded s used none
    rw [share_map (nodup_usedSymbols weights) (fun s used => (mem_usedSymbols.mp used).1) others, share_eq_mass nonzero]
    have whole := cuts.whole
    omega

/-- The trees before any are joined. -/
def seeds (weights : List Nat) : Forest :=
  { weight := weights.toArray
    depth := (List.replicate weights.length 0).toArray
    parent := (List.replicate weights.length 0).toArray
    heap := (usedSymbols weights).toArray }

theorem growing_seeds (weights : List Nat) : Forest.Growing weights.length (usedSymbols weights) (seeds weights) := by
  have inside : ∀ s ∈ usedSymbols weights, s < weights.length := fun s used => (mem_usedSymbols.mp used).1
  have trees : (seeds weights).heap.toList ++ (seeds weights).joined = usedSymbols weights := List.append_nil _
  refine ⟨List.length_replicate, Nat.le_refl _, ?_, ?_, ?_, .done (.refl _)⟩
  · rw [trees]
    exact nodup_usedSymbols weights
  · rw [trees]
    exact inside
  · rw [trees, List.filter_eq_self.mpr fun s used => decide_eq_true (inside s used)]

/-- How many leaves have each length. -/
theorem counted_leaves {g : Nat → Nat} {leaves : List Nat} (short : ∀ s ∈ leaves, g s ≤ limit) :
    Counted limit (leaves.foldl (fun (c : Array Nat) s => c.modify (g s) (· + 1)) (List.replicate (limit + 1) 0).toArray)
      (leaves.map g) := by
  have size : (List.replicate (limit + 1) 0).toArray.size = limit + 1 := List.length_replicate
  have inside : ∀ l ∈ leaves.map g, l < (List.replicate (limit + 1) 0).toArray.size := by
    intro l member
    obtain ⟨s, leaf, rfl⟩ := List.mem_map.mp member
    rw [size]
    exact Nat.lt_succ_of_le (short s leaf)
  have folded : leaves.foldl (fun (c : Array Nat) s => c.modify (g s) (· + 1)) (List.replicate (limit + 1) 0).toArray =
      (leaves.map g).foldl (fun (c : Array Nat) l => c.modify l (· + 1)) (List.replicate (limit + 1) 0).toArray := by
    rw [List.foldl_map]
  rw [folded]
  refine ⟨by rw [size_foldl_modify, size], fun l within => ?_⟩
  rw [getD_foldl_modify inside]
  simp [Nat.lt_succ_of_le within]

/-- The lengths of symbols that are not cut any more: those of their trees, or those that are dealt out to them anew. -/
def dealtLengths (limit count cut : Nat) (g : Nat → Nat) (leaves : List Nat) : List Nat :=
  if cut = 0 then (List.range count).map g
  else
    (List.range count).map fun s => ((assignLengths limit (makeRoom limit cut cut
      (leaves.foldl (fun (c : Array Nat) s => c.modify (g s) (· + 1)) (List.replicate (limit + 1) 0).toArray))
        leaves.reverse).lookup s).getD 0

/-- What is known of the lengths of symbols. -/
structure Measured (limit : Nat) (weights : List Nat) (g : Nat → Nat) (cut : Nat) : Prop where
  cuts : Cut limit ((usedSymbols weights).map g) cut
  coded : ∀ s ∈ usedSymbols weights, g s ≠ 0
  others : ∀ s < weights.length, s ∉ usedSymbols weights → g s = 0

theorem Measured.dealt {cut : Nat} {g : Nat → Nat} {leaves : List Nat} (measured : Measured limit weights g cut)
    (order : leaves.Perm (usedSymbols weights)) (few : leaves.length ≤ 2 ^ limit) :
    Complete limit weights (dealtLengths limit weights.length cut g leaves) := by
  obtain ⟨cuts, coded, others⟩ := measured
  rw [dealtLengths]
  by_cases none : cut = 0
  · subst none
    rw [if_pos rfl]
    exact complete_of_cut cuts coded others
  have short : ∀ s ∈ leaves, g s ≤ limit := fun s leaf => cuts.short _ (List.mem_map_of_mem (order.mem_iff.mp leaf))
  have nonzero : 0 ∉ leaves.map g := by
    intro member
    obtain ⟨s, leaf, none⟩ := List.mem_map.mp member
    exact coded s (order.mem_iff.mp leaf) none
  obtain ⟨traded, counted, whole, same, long⟩ :=
    makeRoom_trades (counted_leaves short) (cuts.reorder (order.map g)) (by rwa [List.length_map]) nonzero (Nat.le_refl cut)
  rw [if_neg none]
  generalize makeRoom limit cut cut _ = counts at counted
  have lengthsOf := counted.dealt whole.short
  unfold assignLengths
  generalize (List.range (limit + 1)).reverse.flatMap _ = lengths at lengthsOf
  have backwards := leaves.reverse_perm.trans order
  have matching : leaves.reverse.length = lengths.length := by
    rw [List.length_reverse, lengthsOf.length_eq, same, List.length_map]
  have assigned := map_lookup_zip (backwards.nodup_iff.mpr (nodup_usedSymbols weights)) matching
  have dealt : ((usedSymbols weights).map fun s => ((leaves.reverse.zip lengths).lookup s).getD 0).Perm traded := by
    refine ((backwards.symm.map _).trans ?_).trans lengthsOf
    rw [assigned]
  refine complete_of_cut (whole.reorder dealt) (fun s used none => ?_) (fun s _ unused => ?_)
  · have member := dealt.mem_iff.mp (List.mem_map_of_mem used)
    rw [none] at member
    exact long member
  · rw [lookup_zip_eq_none (mt backwards.mem_iff.mp unused)]
    rfl

/-- The lengths of a forest of one tree. -/
theorem measured_joined {last : Forest} {root : Nat} (growing : Forest.Growing weights.length (usedSymbols weights) last)
    (one : last.heap.toList = [root]) (two : 2 ≤ (usedSymbols weights).length) (positive : 0 < limit) :
    Measured limit weights ((cutLengths limit last.parent last.joined (last.weight.map fun _ => 0, 0)).1.getD · 0)
      (cutLengths limit last.parent last.joined (last.weight.map fun _ => 0, 0)).2 := by
  obtain ⟨_, _, distinct, inside, among, unjoins⟩ := growing
  rw [one] at distinct inside among unjoins
  have room : ∀ tree ∈ last.joined, tree < (last.weight.map fun _ => 0).size := by
    intro tree member
    rw [Array.size_map]
    exact inside tree (List.mem_append_right _ member)
  have zero (tree : Nat) : (last.weight.map fun _ => 0).getD tree 0 = 0 := by
    rw [Array.getD_eq_getD_getElem?, Array.getElem?_map]
    cases last.weight[tree]? with
    | none => rfl
    | some _ => rfl
  have start : Cut limit ([root].map ((last.weight.map fun _ => 0).getD · 0)) 0 := by
    rw [List.map_singleton, zero]
    exact .root limit
  rw [cutLengths_eq]
  refine ⟨Cut.unjoins unjoins distinct room start, fun s used => ?_, fun s within unused => ?_⟩
  · exact Nat.ne_of_gt (getD_foldl_cutLength_pos room positive (unjoins.mem_joined two used))
  · have apart : s ∉ last.joined := fun member =>
      unused (among.mem_iff.mp (List.mem_filter.mpr ⟨List.mem_append_right _ member, decide_eq_true within⟩))
    exact (getD_foldl_cutLength room apart).trans (zero s)

theorem length_usedSymbols_le (weights : List Nat) : (usedSymbols weights).length ≤ weights.length := by
  rw [length_usedSymbols]
  exact List.countP_le_length

theorem joinAll_seeds (two : 2 ≤ (usedSymbols weights).length) :
    ∃ last : Forest, ∃ root : Nat, Forest.Growing weights.length (usedSymbols weights) last ∧ last.heap.toList = [root] ∧
      (seeds weights).arrange.joinAll (weights.length + 1) = { last with joined := root :: last.joined } := by
  have arranged := Forest.arrange_rearranged (seeds weights)
  have heap : (seeds weights).arrange.heap.size = (usedSymbols weights).length := by
    rw [← Array.length_toList, arranged.heap.length_eq]
    rfl
  have bound := length_usedSymbols_le weights
  have enough : (seeds weights).arrange.heap.size ≤ weights.length + 1 := by omega
  exact ((growing_seeds weights).rearranged arranged).joinAll (by omega) enough

/-- The lengths make a code, whatever the weights are. -/
theorem codeLengths_complete (three : 3 ≤ weights.length) (few : weights.length ≤ 2 ^ limit) :
    Complete limit weights (codeLengths limit weights) := by
  have positive : 0 < limit := Nat.pos_of_ne_zero fun none => by
    subst none
    omega
  obtain ⟨supplied, two⟩ := atLeastTwo_supplied three (Nat.le_add_left 2 (usedSymbols weights).length)
  suffices complete : Complete limit (atLeastTwo 2 weights) (codeLengths limit weights) from
    ⟨complete.length.trans supplied.length, complete.short, fun s some => complete.coded s (supplied.kept s some), complete.whole⟩
  rw [← supplied.length] at few
  unfold codeLengths
  generalize atLeastTwo 2 weights = weights at two few ⊢
  obtain ⟨last, root, growing, one, joined⟩ := joinAll_seeds two
  have measured := measured_joined growing one two positive
  have among := growing.among
  rw [one] at among
  unfold seeds at joined
  dsimp only
  rw [joined]
  exact measured.dealt among (among.length_eq.trans_le ((length_usedSymbols_le weights).trans few))

end

end WorkflowCompiler.Codec
