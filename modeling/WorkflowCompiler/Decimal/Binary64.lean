/-!
# Binary floating point numbers of 64 bits

A number is kept as what it stands for: a sign, a mantissa below `2 ^ 53` and a
power of two from `2 ^ (-1074)` up, so that reading and writing decimals is
exact arithmetic on natural numbers.
-/
namespace WorkflowCompiler.Decimal

/-- A binary floating point number: `finite s m q` is `m * 2 ^ q`, negated if `s`. -/
inductive Binary64
  | nan
  | infinite (negative : Bool)
  | finite (negative : Bool) (mantissa : Nat) (exponent : Int)
deriving DecidableEq, Repr, Inhabited

/-- `num / den` to the nearest natural number, a half to the even neighbour. -/
def roundHalfEven (num den : Nat) : Nat :=
  let q := num / den
  let r := num % den
  if 2 * r < den then q
  else if den < 2 * r then q + 1
  else if q % 2 = 0 then q else q + 1

/-- `num / den` divided by `2 ^ q`, as a fraction. -/
def scaleDown (num den : Nat) (q : Int) : Nat × Nat :=
  if q < 0 then (num * Nat.pow 2 q.natAbs, den) else (num, den * Nat.pow 2 q.natAbs)

def leastExponent : Int := -1074

def greatestExponent : Int := 971

namespace Binary64

/-- The exponent at which `num / den` has a mantissa of 53 bits, not below the least one. -/
def exponentOf (num den : Nat) : Int :=
  let q : Int := (num.log2 : Int) - den.log2 - 53
  let (n, d) := scaleDown num den q
  let fitted := if n / d < Nat.pow 2 53 then q else q + 1
  max fitted leastExponent

/-- The number nearest to `num / den`; of two equally near the one with an even mantissa. -/
def ofRatio (negative : Bool) (num den : Nat) : Binary64 :=
  if num = 0 then .finite negative 0 leastExponent
  else
    let q := exponentOf num den
    let (n, d) := scaleDown num den q
    let m := roundHalfEven n d
    let (m, q) := if m = Nat.pow 2 53 then (Nat.pow 2 52, q + 1) else (m, q)
    if q > greatestExponent then .infinite negative else .finite negative m q

/-- Beyond this many decimal places to either side every decimal is zero or infinite. -/
def decimalReach : Int := 400

/-- The number nearest to the decimal `digits * 10 ^ power`, where `digits` is
    written with `places` digits. -/
def ofDecimal (negative : Bool) (digits : Nat) (places : Nat) (power : Int) : Binary64 :=
  if digits = 0 then .finite negative 0 leastExponent
  else if power + places < -decimalReach then .finite negative 0 leastExponent
  else if power > decimalReach then .infinite negative
  else if power < 0 then ofRatio negative digits (Nat.pow 10 power.natAbs)
  else ofRatio negative (digits * Nat.pow 10 power.natAbs) 1

/-- The number nearest to a natural number. -/
def ofNat (n : Nat) : Binary64 := ofRatio false n 1

/-- Whether two numbers are equal: zeros of both signs are, and `nan` equals nothing. -/
def equals : Binary64 → Binary64 → Bool
  | .nan, _ => false
  | _, .nan => false
  | .finite s m q, .finite s' m' q' => (m == 0 && m' == 0) || (s == s' && m == m' && q == q')
  | a, b => a == b

end Binary64
end WorkflowCompiler.Decimal
