import WorkflowCompiler.Decimal.Binary64

/-!
# Shortest decimals

The decimal with the fewest digits that reads back as a given number, and of
those the nearest one; of two that are as near, the one with an even last digit. The candidates with `n` digits are the two neighbours of
the number on the grid of decimals with `n` digits; the first grid on which one
of them reads back gives the answer.
-/
namespace WorkflowCompiler.Decimal

/-- A positive decimal `0.digits * 10 ^ point`, where `digits` has no zero at its ends. -/
structure Digits where
  digits : List Nat
  point : Int
deriving DecidableEq, Repr

/-- The decimal digits of a number, most significant first; none for zero. -/
def decimalDigits (n : Nat) : List Nat :=
  go n n []
where
  /-- Digit after digit from the right, at most `fuel` of them. -/
  go : Nat → Nat → List Nat → List Nat
    | 0, _, acc => acc
    | fuel + 1, n, acc => if n = 0 then acc else go fuel (n / 10) (n % 10 :: acc)

/-- A positive number as a fraction. -/
def fraction (m : Nat) (q : Int) : Nat × Nat :=
  if q < 0 then (m, Nat.pow 2 q.natAbs) else (m * Nat.pow 2 q.natAbs, 1)

/-- `num / den` in units of `10 ^ e`, as a fraction. -/
def inUnits (num den : Nat) (e : Int) : Nat × Nat :=
  if e < 0 then (num * Nat.pow 10 e.natAbs, den) else (num, den * Nat.pow 10 e.natAbs)

/-- The least `p` with `num / den < 10 ^ p`, from a guess that is too small by at most `fuel`. -/
def pointOf (num den : Nat) : Nat → Int → Int
  | 0, p => p
  | fuel + 1, p =>
    let (n, d) := inUnits num den p
    if n < d then p else pointOf num den fuel (p + 1)

/-- Whether the decimal `d * 10 ^ e` rounds to `m * 2 ^ q`: it lies between the
    midpoints to the two neighbouring numbers, on a midpoint only if `m` is even. -/
def readsBack (m : Nat) (q : Int) (d : Nat) (e : Int) : Bool :=
  let lowest := if m = Nat.pow 2 52 ∧ q > leastExponent then 4 * m - 1 else 4 * m - 2
  let highest := 4 * m + 2
  -- the decimal, in quarters of `2 ^ q`
  let (n1, d1) := if e < 0 then (4 * d, Nat.pow 10 e.natAbs) else (4 * d * Nat.pow 10 e.natAbs, 1)
  let (num, den) := scaleDown n1 d1 q
  if m % 2 = 0 then lowest * den ≤ num && num ≤ highest * den
  else lowest * den < num && num < highest * den

/-- The best decimal with at most `n` digits that reads back, if there is one. -/
def onGrid (m : Nat) (q : Int) (point : Int) (n : Nat) : Option Nat :=
  let e := point - n
  let (num, den) := fraction m q
  let (un, ud) := inUnits num den e
  let below := un / ud
  let remainder := un % ud
  match readsBack m q below e, readsBack m q (below + 1) e with
  | true, true =>
    if 2 * remainder < ud ∨ 2 * remainder = ud ∧ below % 2 = 0 then some below else some (below + 1)
  | true, false => some below
  | false, true => some (below + 1)
  | false, false => none

/-- Drops the zeros at the end. -/
def dropTrailingZeros (ds : List Nat) : List Nat := (ds.reverse.dropWhile (· == 0)).reverse

/-- Tries the grids with `n`, `n + 1`, … digits. -/
def firstGrid (m : Nat) (q : Int) (point : Int) : Nat → Nat → Digits
  | 0, n => ⟨decimalDigits ((onGrid m q point n).getD 0), point⟩
  | fuel + 1, n =>
    match onGrid m q point n with
    | some d =>
      let ds := decimalDigits d
      -- the upper neighbour can be the next power of ten, which has one digit more
      ⟨dropTrailingZeros ds, point + (ds.length - n : Int)⟩
    | none => firstGrid m q point fuel (n + 1)

/-- The shortest decimal of the positive number `m * 2 ^ q`. -/
def shortest (m : Nat) (q : Int) : Digits :=
  let (num, den) := fraction m q
  -- `log2` gives the place of the point up to one or two
  let guess : Int := ((num.log2 : Int) - den.log2 - 1) * 30103 / 100000 - 1
  firstGrid m q (pointOf num den 6 guess) 17 1

end WorkflowCompiler.Decimal
