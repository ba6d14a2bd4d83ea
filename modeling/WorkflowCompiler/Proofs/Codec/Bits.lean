import Mathlib.Algebra.Ring.Nat
import WorkflowCompiler.Codec.Deflate

/-!
Bits and bytes. A number is read back from its bits (`readBits_bitsOfNat`), bytes are
read back from theirs (`readBytes_bitsOfBytes`), and bits that were packed into bytes
come out of them again, with less than a byte of padding (`bitsOfBytes_bytesOfBits`).
-/
namespace WorkflowCompiler.Codec

/-! ### Numbers -/

theorem length_bitsOfNat (count n : Nat) : (bitsOfNat count n).length = count := by
  induction count generalizing n with
  | zero => rfl
  | succ count ih => rw [bitsOfNat, List.length_cons, ih]

theorem natOfBits_bitsOfNat (count n : Nat) : natOfBits (bitsOfNat count n) = n % 2 ^ count := by
  induction count generalizing n with
  | zero => rw [bitsOfNat, natOfBits, Nat.pow_zero, Nat.mod_one]
  | succ count ih =>
    have bit : (n % 2 == 1).toNat = n % 2 := by
      rcases Nat.mod_two_eq_zero_or_one n with even | odd
      · rw [even]; rfl
      · rw [odd]; rfl
    rw [bitsOfNat, natOfBits, ih, bit, Nat.pow_succ', Nat.mod_mul]

theorem natOfBits_lt (bits : List Bool) : natOfBits bits < 2 ^ bits.length := by
  induction bits with
  | nil => exact Nat.one_pos
  | cons bit bits ih =>
    have small : bit.toNat ≤ 1 := Bool.toNat_le bit
    rw [natOfBits, List.length_cons, Nat.pow_succ']
    omega

/-- The bits of a number that bits make, filled up with zeros. -/
theorem bitsOfNat_natOfBits {width : Nat} {bits : List Bool} (short : bits.length ≤ width) :
    bitsOfNat width (natOfBits bits) = bits ++ List.replicate (width - bits.length) false := by
  induction width generalizing bits with
  | zero =>
    rw [List.length_eq_zero_iff.mp (Nat.le_zero.mp short)]
    rfl
  | succ width ih =>
    cases bits with
    | nil => exact congrArg (false :: ·) (ih (show ([] : List Bool).length ≤ width from Nat.zero_le width))
    | cons bit bits =>
      rw [List.length_cons, Nat.add_le_add_iff_right] at short
      have low : (natOfBits (bit :: bits) % 2 == 1) = bit := by
        rw [natOfBits, Nat.add_mul_mod_self_left]
        cases bit <;> rfl
      have high : natOfBits (bit :: bits) / 2 = natOfBits bits := by
        have small : bit.toNat ≤ 1 := Bool.toNat_le bit
        rw [natOfBits]
        omega
      rw [bitsOfNat, low, high, ih short, List.length_cons, Nat.add_sub_add_right, List.cons_append]

theorem readBits_front {width : Nat} {front : List Bool} (whole : front.length = width) (rest : List Bool) :
    readBits width (front ++ rest) = some (natOfBits front, rest) := by
  subst whole
  rw [readBits, if_neg (by simp), List.take_left, List.drop_left]

theorem readBits_bitsOfNat {width n : Nat} (small : n < 2 ^ width) (rest : List Bool) :
    readBits width (bitsOfNat width n ++ rest) = some (n, rest) := by
  rw [readBits_front (length_bitsOfNat width n), natOfBits_bitsOfNat, Nat.mod_eq_of_lt small]

/-! ### Bytes -/

theorem bitsOfBytes_cons (b : UInt8) (bs : List UInt8) : bitsOfBytes (b :: bs) = bitsOfNat 8 b.toNat ++ bitsOfBytes bs := rfl

theorem bitsOfBytes_append (a b : List UInt8) : bitsOfBytes (a ++ b) = bitsOfBytes a ++ bitsOfBytes b := List.flatMap_append ..

theorem length_bitsOfBytes (bs : List UInt8) : (bitsOfBytes bs).length = 8 * bs.length := by
  induction bs with
  | nil => rfl
  | cons b bs ih =>
    rw [bitsOfBytes_cons, List.length_append, length_bitsOfNat, ih, List.length_cons]
    omega

theorem readBytes_bitsOfBytes (bs : List UInt8) (rest : List Bool) :
    readBytes bs.length (bitsOfBytes bs ++ rest) = some (bs, rest) := by
  induction bs with
  | nil => rfl
  | cons b bs ih =>
    rw [bitsOfBytes_cons, List.append_assoc, List.length_cons, readBytes, readBits_bitsOfNat b.toNat_lt]
    simp only [ih, Option.map_some, UInt8.ofNat_toNat]

theorem alignToByte_append {part rest : List Bool} (begun : part.length < 8) (whole : rest.length % 8 = 0) :
    alignToByte (part ++ rest) = rest := by
  have offset : (part ++ rest).length % 8 = part.length := by
    rw [List.length_append]
    omega
  rw [alignToByte, offset, List.drop_left]

theorem bitsOfNat_byteOfBits {bits : List Bool} (short : bits.length ≤ 8) :
    bitsOfNat 8 (byteOfBits bits).toNat = bits ++ List.replicate (8 - bits.length) false := by
  have small : natOfBits bits < 2 ^ 8 := Nat.lt_of_lt_of_le (natOfBits_lt bits) (Nat.pow_le_pow_right (by decide) short)
  rw [byteOfBits, UInt8.toNat_ofNat', Nat.mod_eq_of_lt small, bitsOfNat_natOfBits short]

/-- Bits that were packed into bytes, with the padding of the last byte. -/
theorem bitsOfBytes_bytesOfBits (bits : List Bool) :
    ∃ padding : List Bool, padding.length < 8 ∧ bitsOfBytes (bytesOfBits bits) = bits ++ padding := by
  fun_induction bytesOfBits bits with
  | case1 => exact ⟨[], by decide, rfl⟩
  | case2 bit rest ih =>
    rw [bitsOfBytes_cons, bitsOfNat_byteOfBits (List.length_take_le 8 _)]
    by_cases whole : 7 ≤ rest.length
    · obtain ⟨padding, short, same⟩ := ih
      refine ⟨padding, short, ?_⟩
      have full : ((bit :: rest).take 8).length = 8 := by
        rw [List.length_take, List.length_cons]
        omega
      rw [full, same, List.replicate_zero, List.append_nil, ← List.append_assoc]
      exact congrArg (· ++ padding) (List.take_append_drop 8 (bit :: rest))
    · refine ⟨List.replicate (7 - rest.length) false, by rw [List.length_replicate]; omega, ?_⟩
      rw [List.take_of_length_le (by rw [List.length_cons]; omega), List.drop_eq_nil_of_le (by omega), List.length_cons]
      simp [bytesOfBits, bitsOfBytes]

end WorkflowCompiler.Codec
