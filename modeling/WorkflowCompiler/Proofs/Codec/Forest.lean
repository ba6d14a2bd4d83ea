import WorkflowCompiler.Codec.CodeLengths
import WorkflowCompiler.Proofs.Arrays

/-!
Trees that are joined. Which two trees a heap gives away decides how long the words of a
code are, but not whether they make a code: all that is used of a heap is that it keeps
its trees, in whatever order (`Rearranged`). Every turn takes two trees away and puts one
in their place (`join_perm`), so the trees that were joined tell, from the last ones back
to the first, how the symbols come apart from the one tree that is left (`Unjoins`).
-/
namespace WorkflowCompiler.Codec.Forest

variable {f g h : Forest}

/-! ### Heaps -/

/-- The same trees, with those that are left in any order. -/
structure Rearranged (f g : Forest) : Prop where
  weight : g.weight = f.weight
  parent : g.parent = f.parent
  joined : g.joined = f.joined
  heap : g.heap.toList.Perm f.heap.toList

theorem Rearranged.refl (f : Forest) : Rearranged f f := ⟨rfl, rfl, rfl, .refl _⟩

theorem Rearranged.trans (first : Rearranged f g) (second : Rearranged g h) : Rearranged f h :=
  ⟨second.weight.trans first.weight, second.parent.trans first.parent, second.joined.trans first.joined,
    second.heap.trans first.heap⟩

theorem child?_bounds {place child : Nat} (found : f.child? place = some child) : place < child ∧ child < f.heap.size := by
  unfold child? at found
  split at found
  · cases found
  · rename_i left _
    cases found
    exact ⟨by omega, (Array.getElem?_eq_some_iff.mp left).1⟩
  · rename_i left right
    have inside := (Array.getElem?_eq_some_iff.mp right).1
    cases found
    split
    · omega
    · omega

/-- Two places are exchanged. -/
theorem exchange_perm {heap : Array Nat} {place child : Nat} (here : place < heap.size) (there : child < heap.size) :
    ((heap.setIfInBounds place (heap.getD child 0)).setIfInBounds child (heap.getD place 0)).toList.Perm heap.toList := by
  have swapped : (heap.setIfInBounds place (heap.getD child 0)).setIfInBounds child (heap.getD place 0) =
      heap.swap place child here there := by
    simp [Array.swap_def, Array.setIfInBounds, Array.getD, here, there]
  rw [swapped]
  exact (Array.swap_perm here there).toList

theorem sift_rearranged (fuel place : Nat) (f : Forest) : Rearranged f (sift fuel place f) := by
  induction fuel generalizing place f with
  | zero => exact .refl f
  | succ fuel ih =>
    rw [sift]
    split
    · exact .refl f
    · rename_i child found
      obtain ⟨below, inside⟩ := child?_bounds found
      by_cases lighter : f.lighter (f.heap.getD place 0) (f.heap.getD child 0) = true
      · rw [if_pos lighter]
        exact .refl f
      · rw [if_neg lighter]
        have exchanged : Rearranged f { f with
            heap := (f.heap.setIfInBounds place (f.heap.getD child 0)).setIfInBounds child (f.heap.getD place 0) } :=
          ⟨rfl, rfl, rfl, exchange_perm (Nat.lt_trans below inside) inside⟩
        exact exchanged.trans (ih child _)

theorem settle_rearranged (f : Forest) (place : Nat) : Rearranged f (f.settle place) := sift_rearranged _ place f

theorem arrange_rearranged (f : Forest) : Rearranged f f.arrange := by
  unfold arrange
  generalize (List.range (f.heap.size / 2)).reverse = places
  induction places generalizing f with
  | nil => exact .refl f
  | cons place places ih => exact (settle_rearranged f place).trans (ih _)

/-- The last one takes the place of the first. -/
theorem pop_perm {heap : Array Nat} (some : 0 < heap.size) :
    heap.toList.Perm (heap.getD 0 0 :: (heap.pop.setIfInBounds 0 (heap.back?.getD 0)).toList) := by
  obtain ⟨trees⟩ := heap
  cases trees with
  | nil => cases some
  | cons first others =>
    rcases List.eq_nil_or_concat others with rfl | ⟨mid, last, rfl⟩
    · exact .refl _
    · rw [List.concat_eq_append, ← List.cons_append]
      have last? : (first :: mid ++ [last]).toArray.back?.getD 0 = last := by
        rw [List.back?_toArray, List.getLast?_concat, Option.getD_some]
      have put : ((first :: mid ++ [last]).toArray.pop.setIfInBounds 0 last).toList = last :: mid := by
        rw [Array.toList_setIfInBounds, Array.toList_pop, List.dropLast_concat, List.set_cons_zero]
      rw [last?, put]
      exact .cons first (List.perm_append_singleton last mid)

theorem pop_rearranged (f : Forest) :
    Rearranged { f with heap := f.heap.pop.setIfInBounds 0 (f.heap.back?.getD 0) } f.pop.2 := settle_rearranged _ 0

/-- The forest where a tree and the first of those that are left are one. -/
def unite (a : Nat) (f : Forest) : Forest :=
  { weight := f.weight.push (f.weight.getD a 0 + f.weight.getD (f.heap.getD 0 0) 0)
    depth := f.depth.push (max (f.depth.getD a 0) (f.depth.getD (f.heap.getD 0 0) 0) + 1)
    parent := ((f.parent.setIfInBounds a f.weight.size).setIfInBounds (f.heap.getD 0 0) f.weight.size).push 0
    heap := f.heap.setIfInBounds 0 f.weight.size
    joined := f.heap.getD 0 0 :: a :: f.joined }

theorem join_eq (f : Forest) : f.join = (unite f.pop.1 f.pop.2).settle 0 := rfl

/-- One tree takes the place of two. -/
structure Joins (f g : Forest) (a b : Nat) (rest : List Nat) : Prop where
  before : f.heap.toList.Perm (a :: b :: rest)
  after : g.heap.toList.Perm (f.weight.size :: rest)
  joined : g.joined = b :: a :: f.joined
  weight : g.weight.size = f.weight.size + 1
  parent : g.parent = ((f.parent.setIfInBounds a f.weight.size).setIfInBounds b f.weight.size).push 0

theorem join_joins (two : 2 ≤ f.heap.size) : ∃ a b : Nat, ∃ rest : List Nat, Joins f f.join a b rest := by
  have popped := pop_rearranged f
  have taken : f.heap.toList.Perm (f.pop.1 :: f.pop.2.heap.toList) :=
    (pop_perm (Nat.lt_of_lt_of_le Nat.two_pos two)).trans (popped.heap.symm.cons _)
  have settled := settle_rearranged (unite f.pop.1 f.pop.2) 0
  rw [← join_eq] at settled
  have many : 0 < f.pop.2.heap.toList.length := by
    have same := taken.length_eq
    rw [List.length_cons, Array.length_toList] at same
    omega
  obtain ⟨b, rest, shape⟩ := List.exists_cons_of_length_pos many
  have second : f.pop.2.heap.getD 0 0 = b := by
    rw [Array.getD_eq_getD_getElem?, ← Array.getElem?_toList, shape]
    rfl
  have put : (unite f.pop.1 f.pop.2).heap.toList = f.weight.size :: rest := by
    rw [unite, Array.toList_setIfInBounds, shape, List.set_cons_zero, popped.weight]
  refine ⟨f.pop.1, b, rest, shape ▸ taken, put ▸ settled.heap, ?_, ?_, ?_⟩
  · rw [settled.joined, unite, second, popped.joined]
  · rw [settled.weight, unite, Array.size_push, popped.weight]
  · rw [settled.parent, unite, second, popped.weight, popped.parent]

/-! ### Trees that were joined -/

/-- The trees that were joined, the last ones first, tell how the frontier comes apart into the leaves. -/
inductive Unjoins (parent : Array Nat) (leaves : List Nat) : List Nat → List Nat → Prop
  | done {frontier : List Nat} (apart : frontier.Perm leaves) : Unjoins parent leaves frontier []
  | pair {frontier rest joined : List Nat} {node a b : Nat} (chosen : frontier.Perm (node :: rest))
      (first : parent.getD a 0 = node) (second : parent.getD b 0 = node)
      (onward : Unjoins parent leaves (a :: b :: rest) joined) : Unjoins parent leaves frontier (b :: a :: joined)

variable {parent other : Array Nat} {leaves frontier order joined : List Nat}

theorem Unjoins.reorder (unjoins : Unjoins parent leaves frontier joined) (same : order.Perm frontier) :
    Unjoins parent leaves order joined := by
  cases unjoins with
  | done apart => exact .done (same.trans apart)
  | pair chosen first second onward => exact .pair (same.trans chosen) first second onward

theorem Unjoins.congr (unjoins : Unjoins parent leaves frontier joined)
    (same : ∀ tree ∈ joined, other.getD tree 0 = parent.getD tree 0) : Unjoins other leaves frontier joined := by
  induction unjoins with
  | done apart => exact .done apart
  | pair chosen first second _ ih =>
    obtain ⟨sameSecond, sameFirst, others⟩ : _ ∧ _ ∧ _ := by simpa only [List.forall_mem_cons] using same
    exact .pair chosen (sameFirst.trans first) (sameSecond.trans second) (ih others)

/-- All leaves but those of the frontier were joined. -/
theorem Unjoins.mem (unjoins : Unjoins parent leaves frontier joined) {leaf : Nat} (member : leaf ∈ leaves) :
    leaf ∈ frontier ∨ leaf ∈ joined := by
  induction unjoins with
  | done apart => exact .inl (apart.mem_iff.mpr member)
  | pair chosen _ _ _ ih =>
    rw [chosen.mem_iff]
    grind

/-- One tree that is not a leaf comes apart into trees that were joined. -/
theorem Unjoins.mem_joined {root leaf : Nat} (unjoins : Unjoins parent leaves [root] joined) (two : 2 ≤ leaves.length)
    (member : leaf ∈ leaves) : leaf ∈ joined := by
  cases unjoins with
  | done apart =>
    rw [← apart.length_eq, List.length_singleton] at two
    omega
  | pair chosen _ _ onward =>
    obtain rfl := List.length_eq_zero_iff.mp (Nat.succ.inj chosen.length_eq).symm
    have below := onward.mem member
    simp only [List.mem_cons, List.not_mem_nil, or_false] at below ⊢
    exact below.elim (fun pair => pair.elim (fun first => .inr (.inl first)) .inl) fun later => .inr (.inr later)

/-- Trees are joined until one is left. -/
structure Growing (symbols : Nat) (leaves : List Nat) (f : Forest) : Prop where
  parents : f.parent.size = f.weight.size
  enough : symbols ≤ f.weight.size
  distinct : (f.heap.toList ++ f.joined).Nodup
  inside : ∀ tree ∈ f.heap.toList ++ f.joined, tree < f.weight.size
  among : ((f.heap.toList ++ f.joined).filter (· < symbols)).Perm leaves
  unjoins : Unjoins f.parent leaves f.heap.toList f.joined

variable {symbols : Nat}

theorem Growing.rearranged (growing : Growing symbols leaves f) (same : Rearranged f g) : Growing symbols leaves g := by
  have trees := same.heap.append_right f.joined
  constructor
  · rw [same.parent, same.weight]
    exact growing.parents
  · rw [same.weight]
    exact growing.enough
  · rw [same.joined]
    exact trees.nodup_iff.mpr growing.distinct
  · rw [same.joined, same.weight]
    exact fun tree member => growing.inside tree (trees.mem_iff.mp member)
  · rw [same.joined]
    exact (trees.filter _).trans growing.among
  · rw [same.parent, same.joined]
    exact growing.unjoins.reorder same.heap

theorem Growing.joins (growing : Growing symbols leaves f) {a b : Nat} {rest : List Nat} (joins : Joins f g a b rest) :
    Growing symbols leaves g := by
  obtain ⟨before, after, joined, weight, parent⟩ := joins
  have old : (f.heap.toList ++ f.joined).Perm (a :: b :: rest ++ f.joined) := before.append_right _
  have trees : (g.heap.toList ++ g.joined).Perm (f.weight.size :: (f.heap.toList ++ f.joined)) := by
    rw [joined]
    refine (after.append_right _).trans (.cons _ (.trans ?_ old.symm))
    exact (List.perm_middle.trans (.cons b List.perm_middle)).trans (.swap a b _)
  have distinct := old.nodup_iff.mp growing.distinct
  have inside : ∀ tree ∈ a :: b :: rest ++ f.joined, tree < f.weight.size :=
    fun tree member => growing.inside tree (old.mem_iff.mpr member)
  have fresh : f.weight.size ∉ f.heap.toList ++ f.joined := fun member => Nat.lt_irrefl _ (growing.inside _ member)
  obtain ⟨notA, notB⟩ : a ∉ f.joined ∧ b ∉ f.joined := by grind
  have parentOf {tree : Nat} (known : tree < f.weight.size) : g.parent.getD tree 0 =
      if tree = b then f.weight.size else if tree = a then f.weight.size else f.parent.getD tree 0 := by
    have insideA : a < f.parent.size := growing.parents ▸ inside a (by simp)
    have insideB : b < f.parent.size := growing.parents ▸ inside b (by simp)
    rw [parent, getD_push, if_neg (by simp only [Array.size_setIfInBounds, growing.parents]; omega),
      getD_setIfInBounds (by rwa [Array.size_setIfInBounds]), getD_setIfInBounds insideA]
  constructor
  · rw [parent, Array.size_push, Array.size_setIfInBounds, Array.size_setIfInBounds, growing.parents, weight]
  · rw [weight]
    exact Nat.le_succ_of_le growing.enough
  · exact trees.nodup_iff.mpr (List.nodup_cons.mpr ⟨fresh, growing.distinct⟩)
  · intro tree member
    rw [weight]
    rcases List.mem_cons.mp (trees.mem_iff.mp member) with rfl | old
    · exact Nat.lt_succ_self _
    · exact Nat.lt_succ_of_lt (growing.inside tree old)
  · refine (trees.filter _).trans ?_
    rw [List.filter_cons_of_neg (by simpa using growing.enough)]
    exact growing.among
  · rw [joined]
    refine .pair after ?_ ?_ ((growing.unjoins.reorder before.symm).congr fun tree member => ?_)
    · rw [parentOf (inside a (by simp)), if_pos rfl, ite_self]
    · rw [parentOf (inside b (by simp)), if_pos rfl]
    · rw [parentOf (inside tree (by simp [member])), if_neg (ne_of_mem_of_not_mem member notB),
        if_neg (ne_of_mem_of_not_mem member notA)]

/-- The tree that is left comes apart into the leaves. -/
theorem Growing.joinAll {fuel : Nat} (growing : Growing symbols leaves f) (some : 0 < f.heap.size) (enough : f.heap.size ≤ fuel) :
    ∃ last : Forest, ∃ root : Nat, Growing symbols leaves last ∧ last.heap.toList = [root] ∧
      joinAll fuel f = { last with joined := root :: last.joined } := by
  induction fuel generalizing f with
  | zero => omega
  | succ fuel ih =>
    rw [Forest.joinAll]
    by_cases two : 2 ≤ f.heap.size
    · obtain ⟨a, b, rest, joins⟩ := join_joins two
      have fewer : f.join.heap.size + 1 = f.heap.size := by
        have after := joins.after.length_eq
        have before := joins.before.length_eq
        simp only [Array.length_toList, List.length_cons] at after before
        omega
      rw [if_neg (Nat.not_lt.mpr two)]
      exact ih (growing.joins joins) (by omega) (by omega)
    · have one : f.heap.toList.length = 1 := by
        rw [Array.length_toList]
        omega
      obtain ⟨root, shape⟩ := List.length_eq_one_iff.mp one
      have top : f.heap.getD 0 0 = root := by
        rw [Array.getD_eq_getD_getElem?, ← Array.getElem?_toList, shape]
        rfl
      rw [if_pos (Nat.lt_of_not_le two), top]
      exact ⟨f, root, growing, shape, rfl⟩

end WorkflowCompiler.Codec.Forest
