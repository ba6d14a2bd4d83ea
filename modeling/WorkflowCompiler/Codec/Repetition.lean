import Std.Data.HashMap

/-!
# Repetitions

Bytes as a list of single bytes and copies of what stands before them. Candidates
for a copy are earlier places with the same first bytes, the latest first. A copy
is taken only when none that begins one byte later is longer.
-/
namespace WorkflowCompiler.Codec

/-- A byte, or a copy of earlier output from a distance. -/
inductive Token
  | literal (b : UInt8)
  | copy (length distance : Nat)
deriving DecidableEq, Repr

/-- How many bytes a token stands for. -/
def Token.size : Token → Nat
  | .literal _ => 1
  | .copy length _ => length

namespace Repetition

/-- How many first bytes a candidate shares. -/
def keyWidth : Nat := 4

/-- The shortest copy. -/
def leastLength : Nat := 3

/-- The longest copy. -/
def mostLength : Nat := 258

def mostDistance : Nat := 32506

/-- The greatest distance of a copy of the shortest length. -/
def mostDistanceOfShort : Nat := 4096

/-- A copy of this length is not compared with copies that begin later. -/
def sufficientLength : Nat := 16

/-- A candidate of this length ends the search. -/
def niceLength : Nat := 128

/-- How many candidates are looked at, where a copy of some length is known. -/
def searchLimit (known : Nat) : Nat := if 8 ≤ known then 32 else 128

/-- The first bytes at a place, if there are enough. -/
def keyAt? (bytes : Array UInt8) (place : Nat) : Option (List UInt8) :=
  if place + keyWidth ≤ bytes.size then some (bytes.extract place (place + keyWidth)).toList else none

/-- For every place the last place before it with the same first bytes; zero where there is none. The
    very first place is not used. -/
def candidates (bytes : Array UInt8) : Array Nat :=
  let step := fun (s : Std.HashMap (List UInt8) Nat × Array Nat) (place : Nat) =>
    match keyAt? bytes place with
    | none => (s.1, s.2.push 0)
    | some key => (s.1.insert key place, s.2.push (s.1.getD key 0))
  ((List.range bytes.size).foldl step (∅, #[])).2

/-- How many bytes two places share, up to a limit. -/
def sharedLength (bytes : Array UInt8) (a b : Nat) : Nat → Nat
  | 0 => 0
  | limit + 1 =>
    match bytes[a]?, bytes[b]? with
    | some x, some y => if x = y then sharedLength bytes (a + 1) (b + 1) limit + 1 else 0
    | _, _ => 0

/-- The length and the place of the best candidate that is better than what is known. -/
def search (bytes : Array UInt8) (before : Array Nat) (place : Nat) :
    Nat → Nat → Nat × Nat → Nat × Nat
  | 0, _, best => best
  | budget + 1, candidate, best =>
    let length := sharedLength bytes candidate place mostLength
    let better := if best.1 < length then (length, candidate) else best
    if best.1 < length ∧ min niceLength (bytes.size - place) ≤ length then better
    else
      let next := before.getD candidate 0
      if place - mostDistance < next then search bytes before place budget next better else better

/-- The length and the place of the copy at a place, where a copy one byte before is known. -/
def matchAt (bytes : Array UInt8) (before : Array Nat) (place : Nat) (known : Nat × Nat) : Nat × Nat :=
  let first := before.getD place 0
  if first ≠ 0 ∧ known.1 < sufficientLength ∧ place - first ≤ mostDistance then
    let found := search bytes before place (searchLimit known.1) first known
    if found.1 = leastLength ∧ mostDistanceOfShort < place - found.2 then (leastLength - 1, found.2)
    else found
  else (leastLength - 1, known.2)

/-- The tokens from a place on, in reverse order behind `done`. A copy that begins one byte before
    the place may be `known`; `held` says whether the byte before the place has no token yet. -/
def tokensFrom (bytes : Array UInt8) (before : Array Nat) (place : Nat) (known : Nat × Nat)
    (held : Bool) (done : List Token) : List Token :=
  let heldToken := .literal (bytes.getD (place - 1) 0)
  if bytes.size ≤ place then if held then heldToken :: done else done
  else
    let found := matchAt bytes before place known
    if leastLength ≤ known.1 ∧ found.1 ≤ known.1 then
      tokensFrom bytes before (place + (known.1 - 1)) (leastLength - 1, 0) false
        (.copy known.1 (place - 1 - known.2) :: done)
    else tokensFrom bytes before (place + 1) found true (if held then heldToken :: done else done)
termination_by bytes.size - place
decreasing_by
  · simp only [leastLength] at *
    omega
  · omega

end Repetition

def tokensOf (bytes : Array UInt8) : List Token :=
  (Repetition.tokensFrom bytes (Repetition.candidates bytes) 0 (Repetition.leastLength - 1, 0) false
    []).reverse

end WorkflowCompiler.Codec
