import Mathlib.Algebra.Order.Field.Power
import Mathlib.Data.Rat.Cast.Order
import Mathlib.Tactic.FieldSimp
import Mathlib.Tactic.Linarith
import Mathlib.Tactic.NormNum
import Mathlib.Tactic.Positivity
import Mathlib.Tactic.Ring
import WorkflowCompiler.Decimal.Binary64

/-!
Rounding, over the rationals. A positive rational has one exponent (`HasExponent`),
which is the one that is found for a fraction (`exponentOf_eq`), and it is rounded to
the number between whose midpoints to its neighbours it lies (`RoundsTo`,
`ofRatio_of_roundsTo`).
-/
namespace WorkflowCompiler.Decimal

theorem two_zpow_pos (q : ℤ) : (0 : ℚ) < 2 ^ q := zpow_pos (by norm_num) q

theorem ten_zpow_pos (e : ℤ) : (0 : ℚ) < 10 ^ e := zpow_pos (by norm_num) e

/-! ### Fractions -/

/-- A fraction divided by a power, its terms natural numbers. -/
def lowered (b num den : ℕ) (e : ℤ) : ℕ × ℕ :=
  if e < 0 then (num * Nat.pow b e.natAbs, den) else (num, den * Nat.pow b e.natAbs)

/-- A natural number multiplied by a power, as a fraction. -/
def raised (b n : ℕ) (e : ℤ) : ℕ × ℕ :=
  if e < 0 then (n, Nat.pow b e.natAbs) else (n * Nat.pow b e.natAbs, 1)

theorem zpow_of_neg {e : ℤ} (negative : e < 0) {b : ℚ} : b ^ e = (b ^ e.natAbs)⁻¹ := by
  rw [← zpow_natCast, ← zpow_neg]
  congr 1
  omega

theorem zpow_of_not_neg {e : ℤ} (natural : ¬ e < 0) {b : ℚ} : b ^ e = b ^ e.natAbs := by
  rw [← zpow_natCast]
  congr 1
  omega

theorem lowered_pos {b : ℕ} (base : 0 < b) (num : ℕ) {den : ℕ} (positive : 0 < den) (e : ℤ) : 0 < (lowered b num den e).2 := by
  unfold lowered
  split
  · exact positive
  · exact Nat.mul_pos positive (Nat.pow_pos base)

theorem lowered_div (b num den : ℕ) (e : ℤ) :
    ((lowered b num den e).1 : ℚ) / (lowered b num den e).2 = num / den / (b : ℚ) ^ e := by
  unfold lowered
  split
  case isTrue negative =>
    rw [zpow_of_neg negative, div_inv_eq_mul, Nat.pow_eq]
    push_cast
    ring
  case isFalse natural =>
    rw [zpow_of_not_neg natural, div_div, Nat.pow_eq]
    push_cast
    rfl

theorem raised_pos {b : ℕ} (base : 0 < b) (n : ℕ) (e : ℤ) : 0 < (raised b n e).2 := by
  unfold raised
  split
  · exact Nat.pow_pos base
  · exact Nat.one_pos

theorem raised_div (b n : ℕ) (e : ℤ) : ((raised b n e).1 : ℚ) / (raised b n e).2 = n * (b : ℚ) ^ e := by
  unfold raised
  split
  case isTrue negative =>
    rw [zpow_of_neg negative, Nat.pow_eq]
    push_cast
    rfl
  case isFalse natural =>
    rw [zpow_of_not_neg natural, Nat.pow_eq]
    push_cast
    rw [div_one]

theorem scaleDown_pos (num : ℕ) {den : ℕ} (positive : 0 < den) (q : ℤ) : 0 < (scaleDown num den q).2 :=
  lowered_pos (by decide : 0 < 2) num positive q

theorem scaleDown_div (num den : ℕ) (q : ℤ) :
    ((scaleDown num den q).1 : ℚ) / (scaleDown num den q).2 = num / den / 2 ^ q :=
  lowered_div 2 num den q

/-! ### Rounding to a natural number -/

/-- No natural number is nearer, and of two that are as near this is the even one. -/
structure Nearest (x : ℚ) (m : ℕ) : Prop where
  low : 2 * (m : ℚ) - 1 ≤ 2 * x
  high : 2 * x ≤ 2 * m + 1
  inside : m % 2 = 1 → 2 * (m : ℚ) - 1 < 2 * x ∧ 2 * x < 2 * m + 1

theorem roundHalfEven_eq (num den : ℕ) : roundHalfEven num den =
    if 2 * (num % den) < den then num / den
    else if den < 2 * (num % den) then num / den + 1
    else if num / den % 2 = 0 then num / den else num / den + 1 :=
  rfl

theorem roundHalfEven_of_nearest {num den m : ℕ} (positive : 0 < den) (nearest : Nearest (num / den) m) :
    roundHalfEven num den = m := by
  obtain ⟨low, high, inside⟩ := nearest
  have whole : (0 : ℚ) < den := by exact_mod_cast positive
  rw [← mul_div_assoc, le_div_iff₀ whole] at low
  rw [← mul_div_assoc, div_le_iff₀ whole] at high
  rw [← mul_div_assoc, lt_div_iff₀ whole, div_lt_iff₀ whole] at inside
  have split := Nat.div_add_mod num den
  have part := Nat.mod_lt num positive
  rw [roundHalfEven_eq]
  generalize num / den = n at *
  generalize num % den = r at *
  have splitQ : (num : ℚ) = den * n + r := by exact_mod_cast split.symm
  have partQ : (r : ℚ) < den := by exact_mod_cast part
  rw [splitQ] at low high inside
  -- only the two neighbours of the fraction are near enough
  have atMost : m < n + 2 := by
    have : (m : ℚ) < n + 2 := by nlinarith
    exact_mod_cast this
  have atLeast : n < m + 1 := by
    have : (n : ℚ) < m + 1 := by nlinarith
    exact_mod_cast this
  rcases (by omega : m = n ∨ m = n + 1) with rfl | rfl
  · have below : 2 * r ≤ den := by
      have : 2 * (r : ℚ) ≤ den := by linarith
      exact_mod_cast this
    have strictly : m % 2 = 1 → 2 * r < den := fun odd => by
      have : 2 * (r : ℚ) < den := by linarith [(inside odd).2]
      exact_mod_cast this
    split_ifs <;> omega
  · push_cast at low inside
    have above : den ≤ 2 * r := by
      have : (den : ℚ) ≤ 2 * r := by linarith
      exact_mod_cast this
    have strictly : (n + 1) % 2 = 1 → den < 2 * r := fun odd => by
      have : (den : ℚ) < 2 * r := by linarith [(inside odd).1]
      exact_mod_cast this
    split_ifs <;> omega

theorem le_roundHalfEven {num den bound : ℕ} (positive : 0 < den) (large : (bound : ℚ) ≤ num / den) :
    bound ≤ roundHalfEven num den := by
  rw [le_div_iff₀ (by exact_mod_cast positive)] at large
  have below : bound ≤ num / den := (Nat.le_div_iff_mul_le positive).mpr (by exact_mod_cast large)
  rw [roundHalfEven_eq]
  split_ifs <;> omega

theorem roundHalfEven_le {num den bound : ℕ} (positive : 0 < den) (small : (num / den : ℚ) < bound) :
    roundHalfEven num den ≤ bound := by
  rw [div_lt_iff₀ (by exact_mod_cast positive)] at small
  have above : num / den < bound := (Nat.div_lt_iff_lt_mul positive).mpr (by exact_mod_cast small)
  rw [roundHalfEven_eq]
  split_ifs <;> omega

/-! ### Exponents -/

/-- The exponent with which a positive rational has a mantissa of 53 bits, if that is not too small. -/
structure HasExponent (x : ℚ) (q : ℤ) : Prop where
  least : leastExponent ≤ q
  above : x < 2 ^ 53 * 2 ^ q
  below : leastExponent < q → 2 ^ 52 * 2 ^ q ≤ x

theorem HasExponent.le {x : ℚ} {p q : ℤ} (first : HasExponent x p) (second : HasExponent x q) : p ≤ q := by
  by_contra! larger
  have low := first.below (lt_of_le_of_lt second.least larger)
  have power : (2 : ℚ) ^ (q + 1) ≤ 2 ^ p := zpow_le_zpow_right₀ (by norm_num) larger
  rw [zpow_add_one₀ (by norm_num)] at power
  linarith [second.above]

theorem HasExponent.unique {x : ℚ} {p q : ℤ} (first : HasExponent x p) (second : HasExponent x q) : p = q :=
  le_antisymm (first.le second) (second.le first)

/-- The logarithms of numerator and denominator give that of a fraction but for one. -/
theorem log2_fraction {num den : ℕ} (num_ : 0 < num) (den_ : 0 < den) :
    (2 : ℚ) ^ ((num.log2 : ℤ) - den.log2 - 1) < num / den ∧ (num / den : ℚ) < 2 ^ ((num.log2 : ℤ) - den.log2 + 1) := by
  have numLow : (2 : ℚ) ^ num.log2 ≤ num := by exact_mod_cast Nat.log2_self_le num_.ne'
  have numHigh : (num : ℚ) < 2 ^ num.log2 * 2 := by exact_mod_cast Nat.lt_log2_self
  have denLow : (2 : ℚ) ^ den.log2 ≤ den := by exact_mod_cast Nat.log2_self_le den_.ne'
  have denHigh : (den : ℚ) < 2 ^ den.log2 * 2 := by exact_mod_cast Nat.lt_log2_self
  have whole : (0 : ℚ) < den := by exact_mod_cast den_
  have power : (0 : ℚ) < 2 ^ den.log2 := by positivity
  constructor
  · rw [lt_div_iff₀ whole, zpow_sub₀ (by norm_num), zpow_sub₀ (by norm_num), zpow_natCast, zpow_natCast, zpow_one, div_div,
      div_mul_eq_mul_div, div_lt_iff₀ (by positivity)]
    have : (0 : ℚ) < 2 ^ num.log2 := by positivity
    nlinarith
  · rw [div_lt_iff₀ whole, zpow_add₀ (by norm_num), zpow_sub₀ (by norm_num), zpow_natCast, zpow_natCast, zpow_one,
      div_mul_eq_mul_div, div_mul_eq_mul_div, lt_div_iff₀ power]
    nlinarith

namespace Binary64

theorem hasExponent_max {x : ℚ} {q : ℤ} (below : 2 ^ 52 * 2 ^ q ≤ x) (above : x < 2 ^ 53 * 2 ^ q) :
    HasExponent x (max q leastExponent) := by
  have power : (2 : ℚ) ^ q ≤ 2 ^ max q leastExponent := zpow_le_zpow_right₀ (by norm_num) (le_max_left _ _)
  refine ⟨le_max_right _ _, by linarith, fun larger => ?_⟩
  rwa [max_eq_left (by omega)]

theorem hasExponent_exponentOf {num den : ℕ} (num_ : 0 < num) (den_ : 0 < den) :
    HasExponent (num / den) (exponentOf num den) := by
  obtain ⟨low, high⟩ := log2_fraction num_ den_
  generalize near : (num.log2 : ℤ) - den.log2 - 53 = q
  have power := two_zpow_pos q
  rw [show (num.log2 : ℤ) - den.log2 - 1 = (52 : ℕ) + q by omega, zpow_add₀ (by norm_num), zpow_natCast] at low
  rw [show (num.log2 : ℤ) - den.log2 + 1 = (54 : ℕ) + q by omega, zpow_add₀ (by norm_num), zpow_natCast] at high
  have exponent : exponentOf num den =
      max (if (scaleDown num den q).1 / (scaleDown num den q).2 < 2 ^ 53 then q else q + 1) leastExponent := by
    subst near
    rfl
  have fits : (scaleDown num den q).1 / (scaleDown num den q).2 < 2 ^ 53 ↔ (num / den : ℚ) < 2 ^ 53 * 2 ^ q := by
    have whole := scaleDown_pos num den_ q
    rw [Nat.div_lt_iff_lt_mul whole, ← div_lt_iff₀ power, ← scaleDown_div, div_lt_iff₀ (by exact_mod_cast whole)]
    exact_mod_cast Iff.rfl
  rw [exponent]
  split
  case isTrue fewer => exact hasExponent_max low.le (fits.mp fewer)
  case isFalse more =>
    rw [fits, not_lt] at more
    refine hasExponent_max ?_ ?_ <;> rw [zpow_add_one₀ (by norm_num)] <;> linarith

theorem exponentOf_eq {num den : ℕ} (num_ : 0 < num) (den_ : 0 < den) {q : ℤ} (has : HasExponent (num / den) q) :
    exponentOf num den = q :=
  (hasExponent_exponentOf num_ den_).unique has

end Binary64

/-! ### Rounding to a number -/

/-- A mantissa and an exponent in the one form in which a positive number has them. -/
structure Proper (m : ℕ) (q : ℤ) : Prop where
  positive : 0 < m
  small : m < 2 ^ 53
  full : leastExponent < q → 2 ^ 52 ≤ m
  least : leastExponent ≤ q
  greatest : q ≤ greatestExponent

/-- Four times the lower end of what is rounded to a mantissa: the numbers below a power of two are closer together. -/
def lowest (m : ℕ) (q : ℤ) : ℕ := if m = 2 ^ 52 ∧ q > leastExponent then 4 * m - 1 else 4 * m - 2

/-- A rational lies between the midpoints of `m * 2 ^ q` and its neighbours, on one of them only if `m` is even. -/
structure RoundsTo (x : ℚ) (m : ℕ) (q : ℤ) : Prop where
  low : lowest m q ≤ 4 * (x / 2 ^ q)
  high : 4 * (x / 2 ^ q) ≤ 4 * m + 2
  inside : m % 2 = 1 → lowest m q < 4 * (x / 2 ^ q) ∧ 4 * (x / 2 ^ q) < 4 * m + 2

theorem le_lowest (m : ℕ) (q : ℤ) : (4 * m - 2 : ℚ) ≤ lowest m q := by
  have : 4 * m ≤ lowest m q + 2 := by
    unfold lowest
    split_ifs <;> omega
  have : (4 * m : ℚ) ≤ lowest m q + 2 := by exact_mod_cast this
  linarith

theorem RoundsTo.pos {x : ℚ} {m : ℕ} {q : ℤ} (proper : Proper m q) (rounds : RoundsTo x m q) : 0 < x := by
  have positive : (1 : ℚ) ≤ m := by exact_mod_cast proper.positive
  have scaled : 0 < x / 2 ^ q := by linarith [rounds.low, le_lowest m q]
  exact (div_pos_iff_of_pos_right (two_zpow_pos q)).mp scaled

theorem Proper.bounds {m : ℕ} {q : ℤ} (proper : Proper m q) :
    (2 : ℚ) ^ (-1074 : ℤ) ≤ m * 2 ^ q ∧ (m + 1) * 2 ^ q ≤ (2 : ℚ) ^ (1024 : ℤ) := by
  have power := two_zpow_pos q
  have least : (2 : ℚ) ^ (-1074 : ℤ) ≤ 2 ^ q := zpow_le_zpow_right₀ (by norm_num) proper.least
  have greatest : (2 : ℚ) ^ q ≤ 2 ^ (971 : ℤ) := zpow_le_zpow_right₀ (by norm_num) proper.greatest
  have positive : (1 : ℚ) ≤ m := by exact_mod_cast proper.positive
  have small : (m + 1 : ℚ) ≤ 2 ^ (53 : ℤ) := by exact_mod_cast proper.small
  constructor
  · nlinarith
  · rw [show (1024 : ℤ) = 53 + 971 by norm_num, zpow_add₀ (by norm_num)]
    exact mul_le_mul small greatest power.le (two_zpow_pos _).le

theorem RoundsTo.bounds {x : ℚ} {m : ℕ} {q : ℤ} (proper : Proper m q) (rounds : RoundsTo x m q) :
    (2 : ℚ) ^ (-1075 : ℤ) ≤ x ∧ x ≤ 2 ^ (1024 : ℤ) := by
  obtain ⟨least, greatest⟩ := proper.bounds
  have power := two_zpow_pos q
  have positive : (1 : ℚ) ≤ m := by exact_mod_cast proper.positive
  have low : (m : ℚ) / 2 ≤ x / 2 ^ q := by linarith [rounds.low, le_lowest m q]
  have high : x / 2 ^ q ≤ m + 1 := by linarith [rounds.high]
  rw [le_div_iff₀ power] at low
  rw [div_le_iff₀ power] at high
  constructor
  · rw [show (-1075 : ℤ) = -1074 - 1 by norm_num, zpow_sub_one₀ (by norm_num)]
    linarith
  · linarith

theorem RoundsTo.nearest {x : ℚ} {m : ℕ} {q : ℤ} (rounds : RoundsTo x m q) : Nearest (x / 2 ^ q) m where
  low := by linarith [rounds.low, le_lowest m q]
  high := by linarith [rounds.high]
  inside odd := by
    obtain ⟨low, high⟩ := rounds.inside odd
    constructor <;> linarith [le_lowest m q]

/-- Only a power of two is reached from below its exponent. -/
theorem RoundsTo.eq_power {x : ℚ} {m : ℕ} {q : ℤ} (rounds : RoundsTo x m q) (proper : Proper m q) (larger : leastExponent < q)
    (below : x / 2 ^ q < 2 ^ 52) : m = 2 ^ 52 := by
  by_contra other
  have beyond : (2 : ℚ) ^ 52 + 1 ≤ m := by
    have := proper.full larger
    exact_mod_cast (by omega : 2 ^ 52 + 1 ≤ m)
  linarith [rounds.low, le_lowest m q]

/-- Rounding gives the mantissa and the exponent, or the exponent below where a power of two is reached from there. -/
theorem RoundsTo.scaled {x : ℚ} {m : ℕ} {q : ℤ} (rounds : RoundsTo x m q) (proper : Proper m q) :
    (HasExponent x q ∧ Nearest (x / 2 ^ q) m) ∨
      (m = 2 ^ 52 ∧ HasExponent x (q - 1) ∧ Nearest (x / 2 ^ (q - 1)) (2 ^ 53)) := by
  have power := two_zpow_pos q
  by_cases reached : leastExponent < q → (2 : ℚ) ^ 52 ≤ x / 2 ^ q
  · left
    refine ⟨⟨proper.least, ?_, fun larger => ?_⟩, rounds.nearest⟩
    · rw [← div_lt_iff₀ power]
      have small : (m : ℚ) + 1 ≤ 2 ^ 53 := by exact_mod_cast proper.small
      linarith [rounds.high]
    · rw [← le_div_iff₀ power]
      exact reached larger
  · right
    push Not at reached
    obtain ⟨larger, below⟩ := reached
    have low := rounds.low
    obtain rfl := rounds.eq_power proper larger below
    rw [lowest, if_pos ⟨rfl, larger⟩] at low
    norm_num at low below
    have double : x / 2 ^ (q - 1) = 2 * (x / 2 ^ q) := by
      rw [zpow_sub_one₀ (by norm_num)]
      field_simp
    have half := two_zpow_pos (q - 1)
    refine ⟨rfl, ⟨by omega, ?_, fun _ => ?_⟩, ⟨?_, ?_, fun odd => absurd odd (by norm_num)⟩⟩
    · rw [← div_lt_iff₀ half, double]
      linarith
    · rw [← le_div_iff₀ half, double]
      linarith
    · rw [double]
      norm_num
      linarith
    · rw [double]
      norm_num
      linarith

namespace Binary64

theorem ofRatio_eq (negative : Bool) {num den m : ℕ} {q : ℤ} (num_ : num ≠ 0) (exponent : exponentOf num den = q)
    (rounded : roundHalfEven (scaleDown num den q).1 (scaleDown num den q).2 = m) :
    ofRatio negative num den =
      if m = 2 ^ 53 then (if greatestExponent < q + 1 then .infinite negative else .finite negative (2 ^ 52) (q + 1))
      else if greatestExponent < q then .infinite negative else .finite negative m q := by
  subst exponent rounded
  rw [ofRatio, if_neg num_]
  simp only [Nat.pow_eq]
  split_ifs <;> simp_all

/-- The fraction of a rational that rounds to a number gives this number. -/
theorem ofRatio_of_roundsTo (negative : Bool) {num den m : ℕ} {q : ℤ} (den_ : 0 < den) (proper : Proper m q)
    (rounds : RoundsTo (num / den) m q) : ofRatio negative num den = .finite negative m q := by
  have num_ : 0 < num := by
    rw [Nat.pos_iff_ne_zero]
    rintro rfl
    exact absurd (rounds.pos proper) (by simp)
  have scaled (p : ℤ) {k : ℕ} (nearest : Nearest (num / den / 2 ^ p) k) :
      roundHalfEven (scaleDown num den p).1 (scaleDown num den p).2 = k := by
    rw [← scaleDown_div] at nearest
    exact roundHalfEven_of_nearest (scaleDown_pos num den_ p) nearest
  have greatest := proper.greatest
  rcases rounds.scaled proper with ⟨exponent, nearest⟩ | ⟨rfl, exponent, nearest⟩
  · rw [ofRatio_eq negative num_.ne' (exponentOf_eq num_ den_ exponent) (scaled q nearest), if_neg proper.small.ne,
      if_neg (by omega)]
  · rw [ofRatio_eq negative num_.ne' (exponentOf_eq num_ den_ exponent) (scaled (q - 1) nearest), if_pos rfl,
      if_neg (by omega), sub_add_cancel]

/-- A fraction that is not too small is infinite or a number in its one form. -/
theorem ofRatio_proper (negative : Bool) {num den : ℕ} (den_ : 0 < den) (large : (2 : ℚ) ^ leastExponent ≤ num / den) :
    ofRatio negative num den = .infinite negative ∨ ∃ m q, Proper m q ∧ ofRatio negative num den = .finite negative m q := by
  have num_ : 0 < num := by
    rw [Nat.pos_iff_ne_zero]
    rintro rfl
    have := two_zpow_pos leastExponent
    simp only [Nat.cast_zero, zero_div] at large
    linarith
  obtain ⟨least, above, below⟩ := hasExponent_exponentOf num_ den_
  have equation := ofRatio_eq negative num_.ne' (rfl : exponentOf num den = _) rfl
  generalize exponentOf num den = q at least above below equation
  have power := two_zpow_pos q
  have whole := scaleDown_pos num den_ q
  rw [← div_lt_iff₀ power, ← scaleDown_div] at above
  have small : roundHalfEven (scaleDown num den q).1 (scaleDown num den q).2 ≤ 2 ^ 53 :=
    roundHalfEven_le whole (by exact_mod_cast above)
  have full (larger : leastExponent < q) : 2 ^ 52 ≤ roundHalfEven (scaleDown num den q).1 (scaleDown num den q).2 := by
    have low := below larger
    rw [← le_div_iff₀ power, ← scaleDown_div] at low
    exact le_roundHalfEven whole (by exact_mod_cast low)
  have positive : 1 ≤ roundHalfEven (scaleDown num den q).1 (scaleDown num den q).2 := by
    by_cases larger : leastExponent < q
    · exact le_trans (by norm_num) (full larger)
    · obtain rfl : q = leastExponent := by omega
      rw [← one_le_div₀ power, ← scaleDown_div] at large
      exact le_roundHalfEven whole (by exact_mod_cast large)
  generalize roundHalfEven (scaleDown num den q).1 (scaleDown num den q).2 = m at *
  rw [equation]
  split_ifs with carried beyond beyond
  · exact .inl rfl
  · exact .inr ⟨_, _, ⟨by norm_num, by norm_num, fun _ => le_refl _, by omega, by omega⟩, rfl⟩
  · exact .inl rfl
  · exact .inr ⟨_, _, ⟨positive, by omega, full, least, by omega⟩, rfl⟩

theorem reach_large : (2 : ℚ) ^ (1075 : ℤ) < 10 ^ (400 : ℤ) := by
  have : 2 ^ 1075 < 10 ^ 400 := by decide +kernel
  exact_mod_cast this

/-- A decimal that rounds to a number is within reach. -/
theorem reach_of_roundsTo {digits places m : ℕ} {power q : ℤ} (fits : digits < 10 ^ places) (proper : Proper m q)
    (rounds : RoundsTo (digits * 10 ^ power) m q) : -decimalReach ≤ power + places ∧ power ≤ decimalReach := by
  obtain ⟨low, high⟩ := rounds.bounds proper
  have unit := ten_zpow_pos power
  constructor
  · by_contra! far
    have less : (digits : ℚ) < 10 ^ (places : ℤ) := by exact_mod_cast fits
    have tiny : (digits : ℚ) * 10 ^ power < 10 ^ (-400 : ℤ) := by
      calc (digits : ℚ) * 10 ^ power < 10 ^ (places : ℤ) * 10 ^ power := by gcongr
        _ = 10 ^ (power + places) := by rw [add_comm, zpow_add₀ (by norm_num)]
        _ ≤ 10 ^ (-400 : ℤ) := zpow_le_zpow_right₀ (by norm_num) (by unfold decimalReach at far; omega)
    have : (10 : ℚ) ^ (-400 : ℤ) < 2 ^ (-1075 : ℤ) := by
      rw [zpow_neg, zpow_neg]
      exact inv_strictAnti₀ (two_zpow_pos _) reach_large
    linarith
  · by_contra! far
    have some_ : (1 : ℚ) ≤ digits := by
      have positive := rounds.pos proper
      have : (0 : ℚ) < digits := (mul_pos_iff_of_pos_right unit).mp positive
      exact_mod_cast this
    have huge : (10 : ℚ) ^ (400 : ℤ) ≤ digits * 10 ^ power := by
      calc (10 : ℚ) ^ (400 : ℤ) ≤ 10 ^ power := zpow_le_zpow_right₀ (by norm_num) far.le
        _ ≤ digits * 10 ^ power := le_mul_of_one_le_left unit.le some_
    have : (2 : ℚ) ^ (1024 : ℤ) ≤ 2 ^ (1075 : ℤ) := zpow_le_zpow_right₀ (by norm_num) (by norm_num)
    exact absurd (huge.trans (high.trans this)) (not_le.mpr reach_large)

/-- A decimal that rounds to a number is read as this number. -/
theorem ofDecimal_of_roundsTo (negative : Bool) {digits places m : ℕ} {power q : ℤ} (fits : digits < 10 ^ places)
    (proper : Proper m q) (rounds : RoundsTo (digits * 10 ^ power) m q) :
    ofDecimal negative digits places power = .finite negative m q := by
  obtain ⟨near, small⟩ := reach_of_roundsTo fits proper rounds
  have some_ : digits ≠ 0 := by
    rintro rfl
    exact absurd (rounds.pos proper) (by simp)
  rw [ofDecimal, if_neg some_, if_neg (by omega), if_neg (by omega)]
  split
  case isTrue below =>
    refine ofRatio_of_roundsTo negative (Nat.pow_pos (by decide)) proper ?_
    rw [zpow_of_neg below, ← div_eq_mul_inv] at rounds
    rw [Nat.pow_eq]
    exact_mod_cast rounds
  case isFalse natural =>
    refine ofRatio_of_roundsTo negative Nat.one_pos proper ?_
    rw [zpow_of_not_neg natural] at rounds
    rw [Nat.pow_eq, Nat.cast_one, div_one]
    exact_mod_cast rounds

/-- The numbers in the one form that each has, without a sign for zero. -/
inductive Canonical : Binary64 → Prop
  | nan : Canonical .nan
  | infinite (negative : Bool) : Canonical (.infinite negative)
  | zero : Canonical (.finite false 0 leastExponent)
  | proper (negative : Bool) {m : ℕ} {q : ℤ} (proper : Proper m q) : Canonical (.finite negative m q)

theorem ofNat_canonical (n : ℕ) : (ofNat n).Canonical := by
  by_cases zero : n = 0
  · subst zero
    exact .zero
  · have large : (2 : ℚ) ^ leastExponent ≤ (n : ℚ) / (1 : ℕ) := by
      have some_ : (1 : ℚ) ≤ n := by exact_mod_cast Nat.one_le_iff_ne_zero.mpr zero
      rw [Nat.cast_one, div_one]
      exact le_trans (zpow_le_one_of_nonpos₀ (by norm_num) (by decide)) some_
    rw [ofNat]
    rcases ofRatio_proper false Nat.one_pos large with infinite | ⟨m, q, proper, finite⟩
    · rw [infinite]
      exact .infinite false
    · rw [finite]
      exact .proper false proper

end Binary64

end WorkflowCompiler.Decimal
