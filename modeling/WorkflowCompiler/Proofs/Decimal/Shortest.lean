import Mathlib.Data.List.TakeWhile
import Mathlib.Data.Nat.Digits.Lemmas
import WorkflowCompiler.Decimal.Shortest
import WorkflowCompiler.Proofs.Decimal.Rounding

/-!
The shortest decimal of a number rounds to the number (`shortest_roundsTo`): a decimal
that is tried reads back exactly if it rounds to the number (`readsBack_iff`), one of
those with 17 digits does (`onGrid_seventeen`), and the place of the point that they are
tried with is not too large (`le_pointOf`, `guess_le`).
-/
namespace WorkflowCompiler.Decimal

/-! ### Fractions -/

theorem fraction_pos {m : ℕ} (positive : 0 < m) (q : ℤ) : 0 < (fraction m q).1 ∧ 0 < (fraction m q).2 := by
  refine ⟨?_, raised_pos (by decide : 0 < 2) m q⟩
  unfold fraction
  split
  · exact positive
  · exact Nat.mul_pos positive (Nat.pow_pos (by decide))

theorem fraction_div (m : ℕ) (q : ℤ) : ((fraction m q).1 : ℚ) / (fraction m q).2 = m * 2 ^ q := raised_div 2 m q

theorem inUnits_pos (num : ℕ) {den : ℕ} (positive : 0 < den) (e : ℤ) : 0 < (inUnits num den e).2 :=
  lowered_pos (by decide : 0 < 10) num positive e

theorem inUnits_div (num den : ℕ) (e : ℤ) :
    ((inUnits num den e).1 : ℚ) / (inUnits num den e).2 = num / den / 10 ^ e :=
  lowered_div 10 num den e

/-! ### Decimals on a grid -/

/-- A decimal in quarters, as a fraction. -/
def quarters (d : ℕ) (e : ℤ) : ℕ × ℕ := raised 10 (4 * d) e

theorem quarters_pos (d : ℕ) (e : ℤ) : 0 < (quarters d e).2 := raised_pos (by decide : 0 < 10) (4 * d) e

theorem quarters_div (d : ℕ) (e : ℤ) : ((quarters d e).1 : ℚ) / (quarters d e).2 = 4 * (d * 10 ^ e) := by
  rw [quarters, raised_div]
  push_cast
  ring

theorem readsBack_eq (m : ℕ) (q : ℤ) (d : ℕ) (e : ℤ) :
    readsBack m q d e =
      let parts := scaleDown (quarters d e).1 (quarters d e).2 q
      if m % 2 = 0 then lowest m q * parts.2 ≤ parts.1 && parts.1 ≤ (4 * m + 2) * parts.2
      else lowest m q * parts.2 < parts.1 && parts.1 < (4 * m + 2) * parts.2 :=
  rfl

/-- A decimal reads back if it rounds to the number. -/
theorem readsBack_iff (m : ℕ) (q : ℤ) (d : ℕ) (e : ℤ) : readsBack m q d e = true ↔ RoundsTo (d * 10 ^ e) m q := by
  have whole := scaleDown_pos (quarters d e).1 (quarters_pos d e) q
  have value := scaleDown_div (quarters d e).1 (quarters d e).2 q
  rw [quarters_div, mul_div_assoc] at value
  rw [readsBack_eq]
  generalize scaleDown (quarters d e).1 (quarters d e).2 q = parts at *
  obtain ⟨num, den⟩ := parts
  have positive : (0 : ℚ) < den := by exact_mod_cast whole
  have above (bound : ℕ) : bound * den ≤ num ↔ (bound : ℚ) ≤ 4 * (d * 10 ^ e / 2 ^ q) := by
    rw [← value, le_div_iff₀ positive]
    exact_mod_cast Iff.rfl
  have below (bound : ℕ) : num ≤ bound * den ↔ 4 * (d * 10 ^ e / 2 ^ q) ≤ (bound : ℚ) := by
    rw [← value, div_le_iff₀ positive]
    exact_mod_cast Iff.rfl
  have highest : ((4 * m + 2 : ℕ) : ℚ) = 4 * m + 2 := by push_cast; ring
  simp only
  split
  case isTrue even =>
    rw [Bool.and_eq_true, decide_eq_true_iff, decide_eq_true_iff, above, below, highest]
    exact ⟨fun ⟨low, high⟩ => ⟨low, high, fun odd => by omega⟩, fun rounds => ⟨rounds.low, rounds.high⟩⟩
  case isFalse odd =>
    rw [Bool.and_eq_true, decide_eq_true_iff, decide_eq_true_iff, ← not_le, ← not_le (b := num), above, below,
      highest, not_le, not_le]
    exact ⟨fun inside => ⟨inside.1.le, inside.2.le, fun _ => inside⟩, fun rounds => rounds.inside (by omega)⟩

theorem onGrid_roundsTo {m : ℕ} {q point : ℤ} {n d : ℕ} (found : onGrid m q point n = some d) :
    RoundsTo (d * 10 ^ (point - n)) m q := by
  rw [← readsBack_iff]
  unfold onGrid at found
  simp only at found
  split at found
  case h_1 below above =>
    split at found
    · cases found
      exact below
    · cases found
      exact above
  case h_2 below _ =>
    cases found
    exact below
  case h_3 above =>
    cases found
    exact above
  case h_4 => cases found

theorem onGrid_isSome_of_readsBack {m : ℕ} {q point : ℤ} {n d : ℕ}
    (below : d = (inUnits (fraction m q).1 (fraction m q).2 (point - n)).1 / (inUnits (fraction m q).1 (fraction m q).2 (point - n)).2)
    (either : readsBack m q d (point - n) = true ∨ readsBack m q (d + 1) (point - n) = true) :
    (onGrid m q point n).isSome = true := by
  subst below
  by_contra none
  rw [Option.not_isSome_iff_eq_none] at none
  unfold onGrid at none
  simp only at none
  split at none
  case h_1 => split at none <;> cases none
  case h_2 => cases none
  case h_3 => cases none
  case h_4 below above =>
    rcases either with reads | reads
    · rw [reads] at below
      cases below
    · rw [reads] at above
      cases above

/-- A decimal this near to the number rounds to it. -/
theorem roundsTo_of_near {x : ℚ} {m : ℕ} {q : ℤ} (low : lowest m q < 4 * (x / 2 ^ q)) (high : 4 * (x / 2 ^ q) < 4 * m + 2) :
    RoundsTo x m q :=
  ⟨low.le, high.le, fun _ => ⟨low, high⟩⟩

/-- Half a step of a grid with 17 digits is less than the way to the lower midpoint. -/
theorem lowest_lt {m : ℕ} {q : ℤ} (proper : Proper m q) {step : ℚ} (fine : step * 10 ^ 16 ≤ m) :
    (lowest m q : ℚ) < 4 * m - 2 * step := by
  have small : (m : ℚ) + 1 ≤ 2 ^ 53 := by exact_mod_cast proper.small
  have positive := proper.positive
  unfold lowest
  split
  case isTrue power =>
    rw [power.1] at fine ⊢
    norm_num at fine ⊢
    linarith
  case isFalse =>
    rw [Nat.cast_sub (by omega)]
    push_cast
    linarith

/-- A fraction lies between its whole part and the next number, in steps of any size. -/
theorem between_steps {num den : ℕ} (den_ : 0 < den) {step x : ℚ} (unit : 0 < step) (exactly : (num / den : ℚ) * step = x) :
    ((num / den : ℕ) : ℚ) * step ≤ x ∧ x < ((num / den + 1 : ℕ) : ℚ) * step := by
  have positive : (0 : ℚ) < den := by exact_mod_cast den_
  rw [← exactly]
  constructor
  · refine mul_le_mul_of_nonneg_right ?_ unit.le
    rw [le_div_iff₀ positive]
    exact_mod_cast Nat.div_mul_le_self num den
  · refine mul_lt_mul_of_pos_right ?_ unit
    rw [div_lt_iff₀ positive]
    exact_mod_cast (Nat.div_lt_iff_lt_mul den_).mp (Nat.lt_succ_self (num / den))

/-- One of the two neighbours of a number rounds to it on a grid that has 17 digits for it. -/
theorem onGrid_seventeen {m : ℕ} {q point : ℤ} {n : ℕ} (proper : Proper m q)
    (fine : (10 : ℚ) ^ (point - n) * 10 ^ 16 ≤ m * 2 ^ q) : (onGrid m q point n).isSome = true := by
  refine onGrid_isSome_of_readsBack rfl ?_
  rw [readsBack_iff, readsBack_iff]
  have value := inUnits_div (fraction m q).1 (fraction m q).2 (point - n)
  have whole := inUnits_pos (fraction m q).1 (fraction_pos proper.positive q).2 (point - n)
  rw [fraction_div] at value
  generalize inUnits (fraction m q).1 (fraction m q).2 (point - n) = parts at *
  obtain ⟨num, den⟩ := parts
  simp only at value whole ⊢
  have power := two_zpow_pos q
  have unit : (0 : ℚ) < 10 ^ (point - n) / 2 ^ q := div_pos (ten_zpow_pos _) power
  rw [← div_le_iff₀ power, mul_div_right_comm] at fine
  have exactly : (num / den : ℚ) * (10 ^ (point - n) / 2 ^ q) = m := by
    rw [value]
    field_simp
  have near (k : ℕ) (low : (lowest m q : ℚ) < 4 * (k * (10 ^ (point - n) / 2 ^ q)))
      (high : 4 * ((k : ℚ) * (10 ^ (point - n) / 2 ^ q)) < 4 * m + 2) : RoundsTo (k * 10 ^ (point - n)) m q := by
    rw [← mul_div_assoc] at low high
    exact roundsTo_of_near low high
  generalize (10 : ℚ) ^ (point - n) / 2 ^ q = step at *
  obtain ⟨below, above⟩ := between_steps whole unit exactly
  have low := lowest_lt proper fine
  have small : (m : ℚ) + 1 ≤ 2 ^ 53 := by exact_mod_cast proper.small
  push_cast at above
  by_cases half : m - ((num / den : ℕ) : ℚ) * step ≤ step / 2
  · exact .inl (near _ (by linarith) (by linarith))
  · refine .inr (near _ ?_ ?_) <;> push_cast <;> linarith

/-! ### The place of the point -/

/-- Counting up stops at a place that is not too large. -/
theorem le_pointOf (fuel : ℕ) {num den : ℕ} (den_ : 0 < den) {p : ℤ} (low : (10 : ℚ) ^ (p - 1) ≤ num / den) :
    (10 : ℚ) ^ (pointOf num den fuel p - 1) ≤ num / den := by
  induction fuel generalizing p with
  | zero => exact low
  | succ fuel ih =>
    have whole := inUnits_pos num den_ p
    have value := inUnits_div num den p
    rw [pointOf]
    generalize inUnits num den p = parts at *
    obtain ⟨n, d⟩ := parts
    simp only at value whole ⊢
    split
    case isTrue => exact low
    case isFalse more =>
      refine ih ?_
      have reached : (1 : ℚ) ≤ num / den / 10 ^ p := by
        rw [← value, le_div_iff₀ (by exact_mod_cast whole), one_mul]
        exact_mod_cast not_lt.mp more
      rwa [add_sub_cancel_right, ← one_le_div₀ (ten_zpow_pos p)]

/-- The estimate of the decimal logarithm of a power of two, for all powers that occur. -/
theorem estimate_le : ∀ k < 1100, 10 ^ (k * 30103 / 100000) ≤ 100 * 2 ^ k := by
  decide +kernel

theorem estimate_negative_le : ∀ k < 1100, 2 ^ k ≤ 100 * 10 ^ ((k * 30103 + 99999) / 100000) := by
  decide +kernel

theorem estimate_zpow_le {k : ℤ} (low : -1100 < k) (high : k < 1100) : (10 : ℚ) ^ (k * 30103 / 100000) ≤ 100 * 2 ^ k := by
  by_cases negative : k < 0
  · obtain ⟨j, rfl⟩ : ∃ j : ℕ, k = -j := ⟨k.natAbs, by omega⟩
    have small : j < 1100 := by omega
    have place : (-j : ℤ) * 30103 / 100000 = -(((j * 30103 + 99999) / 100000 : ℕ) : ℤ) := by omega
    have estimate : (2 : ℚ) ^ j ≤ 100 * 10 ^ ((j * 30103 + 99999) / 100000) := by exact_mod_cast estimate_negative_le j small
    rw [place, zpow_neg, zpow_neg, zpow_natCast, zpow_natCast, inv_le_iff_one_le_mul₀ (by positivity), ← div_eq_mul_inv,
      div_mul_eq_mul_div, one_le_div₀ (by positivity)]
    exact estimate
  · obtain ⟨j, rfl⟩ : ∃ j : ℕ, k = j := ⟨k.natAbs, by omega⟩
    have place : (j : ℤ) * 30103 / 100000 = ((j * 30103 / 100000 : ℕ) : ℤ) := by omega
    rw [place, zpow_natCast, zpow_natCast]
    exact_mod_cast estimate_le j (by omega)

/-- The place from which the point is looked for. -/
def guess (num den : ℕ) : ℤ := ((num.log2 : ℤ) - den.log2 - 1) * 30103 / 100000 - 1

theorem guess_le {m : ℕ} {q : ℤ} (proper : Proper m q) :
    (10 : ℚ) ^ (guess (fraction m q).1 (fraction m q).2 - 1) ≤ m * 2 ^ q := by
  obtain ⟨num_, den_⟩ := fraction_pos proper.positive q
  obtain ⟨low, high⟩ := log2_fraction num_ den_
  obtain ⟨least, greatest⟩ := proper.bounds
  rw [fraction_div] at low high
  unfold guess
  generalize near : ((fraction m q).1.log2 : ℤ) - (fraction m q).2.log2 = k at *
  have below : (2 : ℚ) ^ (k - 1) < 2 ^ (1024 : ℤ) := by linarith [two_zpow_pos q]
  have atMost : k - 1 < 1024 := (zpow_lt_zpow_iff_right₀ (by norm_num)).mp below
  have atLeast : -1074 < k + 1 := (zpow_lt_zpow_iff_right₀ (by norm_num)).mp (lt_of_le_of_lt least high)
  have estimate := estimate_zpow_le (k := k - 1) (by omega) (by omega)
  rw [sub_sub, zpow_sub₀ (by norm_num), div_le_iff₀ (by norm_num)]
  norm_num
  linarith

/-! ### Digits -/

/-- The number that digits spell, the most significant first. -/
def numeral (ds : List ℕ) : ℕ := Nat.ofDigits 10 ds.reverse

theorem numeral_append (a b : List ℕ) : numeral (a ++ b) = numeral a * 10 ^ b.length + numeral b := by
  rw [numeral, numeral, numeral, List.reverse_append, Nat.ofDigits_append, List.length_reverse]
  ring

theorem numeral_zeros (z : ℕ) : numeral (List.replicate z 0) = 0 := by
  rw [numeral, List.reverse_replicate, Nat.ofDigits_replicate_zero]

theorem numeral_lt {ds : List ℕ} (each : ∀ d ∈ ds, d < 10) : numeral ds < 10 ^ ds.length := by
  rw [numeral, ← List.length_reverse]
  exact Nat.ofDigits_lt_base_pow_length (by decide) fun d member => each d (List.mem_reverse.mp member)

/-- Decimal digits without a leading zero. -/
structure Numeric (ds : List ℕ) : Prop where
  each : ∀ d ∈ ds, d < 10
  leading : ∀ d ∈ ds.head?, d ≠ 0
  nonempty : ds ≠ []

theorem Numeric.take {ds : List ℕ} (numeric : Numeric ds) {k : ℕ} (positive : 0 < k) : Numeric (ds.take k) := by
  obtain ⟨each, leading, some_⟩ := numeric
  refine ⟨fun d member => each d (List.mem_of_mem_take member), fun d first => leading d ?_, ?_⟩
  · rwa [List.head?_take, if_neg positive.ne'] at first
  · rw [Ne, List.take_eq_nil_iff]
    rintro (none | none)
    · omega
    · exact some_ none

theorem Numeric.append_zeros {ds : List ℕ} (numeric : Numeric ds) (z : ℕ) : Numeric (ds ++ List.replicate z 0) := by
  obtain ⟨each, leading, some_⟩ := numeric
  refine ⟨List.forall_mem_append.mpr ⟨each, fun d member => ?_⟩, fun d first => leading d ?_, by simp [some_]⟩
  · rw [List.eq_of_mem_replicate member]
    decide
  · rwa [List.head?_append_of_ne_nil _ some_] at first

theorem go_eq {fuel n : ℕ} (enough : n ≤ fuel) (acc : List ℕ) :
    decimalDigits.go fuel n acc = (Nat.digits 10 n).reverse ++ acc := by
  induction fuel generalizing n acc with
  | zero =>
    obtain rfl : n = 0 := by omega
    rfl
  | succ fuel ih =>
    rw [decimalDigits.go]
    split
    case isTrue zero =>
      subst zero
      rfl
    case isFalse positive =>
      have front : Nat.digits 10 n = n % 10 :: Nat.digits 10 (n / 10) := Nat.digits_def' (by decide) (by omega)
      rw [ih (by omega), front, List.reverse_cons, List.append_assoc, List.singleton_append]

theorem decimalDigits_eq (n : ℕ) : decimalDigits n = (Nat.digits 10 n).reverse := by
  rw [decimalDigits, go_eq (le_refl n), List.append_nil]

theorem numeral_decimalDigits (n : ℕ) : numeral (decimalDigits n) = n := by
  rw [numeral, decimalDigits_eq, List.reverse_reverse, Nat.ofDigits_digits]

theorem numeric_decimalDigits {n : ℕ} (positive : 0 < n) : Numeric (decimalDigits n) where
  each d member := by
    rw [decimalDigits_eq, List.mem_reverse] at member
    exact Nat.digits_lt_base (by decide) member
  leading d first := by
    rw [decimalDigits_eq, List.head?_reverse, List.getLast?_eq_some_getLast (Nat.digits_ne_nil_iff_ne_zero.mpr positive.ne')] at first
    cases first
    exact Nat.getLast_digit_ne_zero 10 positive.ne'
  nonempty := by
    rw [decimalDigits_eq, Ne, List.reverse_eq_nil_iff]
    exact Nat.digits_ne_nil_iff_ne_zero.mpr positive.ne'

theorem dropTrailingZeros_append (ds : List ℕ) : ∃ z, ds = dropTrailingZeros ds ++ List.replicate z 0 := by
  have zeros : ds.reverse.takeWhile (· == 0) = List.replicate (ds.reverse.takeWhile (· == 0)).length 0 :=
    List.eq_replicate_iff.mpr ⟨rfl, fun d member => by simpa using List.mem_takeWhile_imp member⟩
  refine ⟨(ds.reverse.takeWhile (· == 0)).length, ?_⟩
  rw [← List.reverse_replicate, ← zeros, dropTrailingZeros, ← List.reverse_append, List.takeWhile_append_dropWhile, List.reverse_reverse]

theorem Numeric.dropTrailingZeros {ds : List ℕ} (numeric : Numeric ds) (positive : 0 < numeral ds) :
    Numeric (dropTrailingZeros ds) := by
  obtain ⟨z, whole⟩ := dropTrailingZeros_append ds
  have some : Decimal.dropTrailingZeros ds ≠ [] := by
    intro none
    rw [whole, none, List.nil_append, numeral_zeros] at positive
    omega
  refine ⟨fun d member => numeric.each d ?_, fun d first => numeric.leading d ?_, some⟩
  · rw [whole]
    exact List.mem_append_left _ member
  · rw [whole, List.head?_append_of_ne_nil _ some]
    exact first

/-! ### The first grid -/

/-- What a decimal stands for. -/
def Digits.value (d : Digits) : ℚ := numeral d.digits * 10 ^ (d.point - d.digits.length)

/-- The decimal with given digits on a grid. -/
def onPoint (point : ℤ) (n d : ℕ) : Digits :=
  ⟨dropTrailingZeros (decimalDigits d), point + ((decimalDigits d).length - n : ℤ)⟩

theorem onPoint_value (point : ℤ) (n d : ℕ) : (onPoint point n d).value = d * 10 ^ (point - n) := by
  obtain ⟨z, whole⟩ := dropTrailingZeros_append (decimalDigits d)
  have number := numeral_decimalDigits d
  rw [whole, numeral_append, numeral_zeros, List.length_replicate, add_zero] at number
  have length := congrArg List.length whole
  rw [List.length_append, List.length_replicate] at length
  rw [Digits.value, onPoint, length]
  generalize dropTrailingZeros (decimalDigits d) = ds at *
  rw [← number]
  push_cast
  rw [mul_assoc, ← zpow_natCast, ← zpow_add₀ (by norm_num)]
  congr 2
  ring

theorem onPoint_numeric (point : ℤ) (n : ℕ) {d : ℕ} (positive : 0 < d) : Numeric (onPoint point n d).digits :=
  (numeric_decimalDigits positive).dropTrailingZeros (by rwa [numeral_decimalDigits])

theorem firstGrid_eq {m : ℕ} {q point : ℤ} {fuel n last : ℕ} (later : n ≤ last) (near : last < n + fuel)
    (found : (onGrid m q point last).isSome = true) :
    ∃ k d, onGrid m q point k = some d ∧ firstGrid m q point fuel n = onPoint point k d := by
  induction fuel generalizing n with
  | zero => omega
  | succ fuel ih =>
    rw [firstGrid]
    cases here : onGrid m q point n with
    | some d => exact ⟨n, d, here, rfl⟩
    | none =>
      have other : n ≠ last := by
        rintro rfl
        rw [here] at found
        cases found
      exact ih (by omega) (by omega)

/-- The shortest decimal is one that rounds to the number. -/
theorem shortest_eq {m : ℕ} {q : ℤ} (proper : Proper m q) :
    ∃ (point : ℤ) (n d : ℕ), RoundsTo (d * 10 ^ (point - n)) m q ∧ shortest m q = onPoint point n d := by
  have den_ := (fraction_pos proper.positive q).2
  have equation : shortest m q = firstGrid m q (pointOf (fraction m q).1 (fraction m q).2 6
      (guess (fraction m q).1 (fraction m q).2)) 17 1 := rfl
  have low := guess_le proper
  rw [← fraction_div] at low
  have point := le_pointOf 6 den_ low
  rw [fraction_div] at point
  generalize pointOf (fraction m q).1 (fraction m q).2 6 (guess (fraction m q).1 (fraction m q).2) = p at *
  have found : (onGrid m q p 17).isSome = true := by
    refine onGrid_seventeen proper ?_
    rw [← zpow_natCast, ← zpow_add₀ (by norm_num)]
    convert point using 2
    push_cast
    ring
  obtain ⟨n, d, grid, first⟩ := firstGrid_eq (by omega : 1 ≤ 17) (by omega : 17 < 1 + 17) found
  exact ⟨p, n, d, onGrid_roundsTo grid, equation.trans first⟩

/-- The digits of a number are a numeral, and what they stand for rounds to the number. -/
theorem shortest_roundsTo {m : ℕ} {q : ℤ} (proper : Proper m q) :
    Numeric (shortest m q).digits ∧ RoundsTo (shortest m q).value m q := by
  obtain ⟨point, n, d, rounds, equation⟩ := shortest_eq proper
  rw [equation, onPoint_value]
  refine ⟨onPoint_numeric point n ?_, rounds⟩
  rw [Nat.pos_iff_ne_zero]
  rintro rfl
  exact absurd (rounds.pos proper) (by simp)

end WorkflowCompiler.Decimal
