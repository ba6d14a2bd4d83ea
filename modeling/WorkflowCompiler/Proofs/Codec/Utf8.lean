import WorkflowCompiler.Codec.Utf8

/-!
UTF-8 loses nothing: decoding gives back the characters that were encoded
(`decodeUtf8_encodeUtf8`), one character after the other (`decodeUtf8_encodeChar`).
-/
namespace WorkflowCompiler.Codec

theorem toNat_byte {n : Nat} (small : n < 0x100) : (byte n).toNat = n := by
  rw [byte, UInt8.toNat_ofNat', Nat.mod_eq_of_lt small]

/-- A byte in range adds six bits to a value. -/
theorem followBytes_cons {count low high value n : Nat} (bits : n < 0x40) (least : low ≤ 0x80 + n) (most : 0x80 + n ≤ high)
    (rest : List UInt8) : followBytes (count + 1) low high value (byte (0x80 + n) :: rest) =
      followBytes count 0x80 0xBF (value * 0x40 + n) rest := by
  rw [followBytes, toNat_byte (by omega), if_pos ⟨least, most⟩, Nat.add_sub_cancel_left]

theorem followBytes_last {low high value n : Nat} (bits : n < 0x40) (least : low ≤ 0x80 + n) (most : 0x80 + n ≤ high)
    (rest : List UInt8) : followBytes 1 low high value (byte (0x80 + n) :: rest) = (some (value * 0x40 + n), rest) := by
  rw [followBytes_cons bits least most, followBytes]

/-- What the first byte and the following ones give together. -/
theorem decodeUtf8_cons {b : UInt8} {count low high value n : Nat} (lead : leadByte? b.toNat = some (count, low, high, value))
    {following rest : List UInt8} (follow : followBytes count low high value (following ++ rest) = (some n, rest)) :
    decodeUtf8 (b :: (following ++ rest)) = Char.ofNat n :: decodeUtf8 rest := by
  rw [decodeUtf8, lead]
  simp only [follow]

theorem leadByte?_two {n : Nat} (least : 0x80 ≤ n) (most : n < 0x800) :
    leadByte? (byte (0xC0 + n / 0x40)).toNat = some (1, 0x80, 0xBF, n / 0x40) := by
  rw [toNat_byte (by omega)]
  unfold leadByte?
  rw [if_neg (by omega), if_neg (by omega), if_pos (by omega), Nat.add_sub_cancel_left]

/-- The range of the second of three bytes leaves out what two bytes can say, and surrogates. -/
theorem leadByte?_three {n : Nat} (least : 0x800 ≤ n) (most : n < 0x10000) (scalar : n < 0xD800 ∨ 0xDFFF < n) :
    ∃ low high, leadByte? (byte (0xE0 + n / 0x1000)).toNat = some (2, low, high, n / 0x1000) ∧
      low ≤ 0x80 + n / 0x40 % 0x40 ∧ 0x80 + n / 0x40 % 0x40 ≤ high := by
  rw [toNat_byte (by omega)]
  unfold leadByte?
  rw [if_neg (by omega), if_neg (by omega), if_neg (by omega)]
  by_cases first : n / 0x1000 = 0
  · rw [if_pos (by omega), first]
    exact ⟨_, _, rfl, by omega, by omega⟩
  · rw [if_neg (by omega)]
    by_cases surrogates : n / 0x1000 = 0xD
    · rw [if_pos (by omega), Nat.add_sub_cancel_left]
      exact ⟨_, _, rfl, by omega, by omega⟩
    · rw [if_neg (by omega), if_pos (by omega), Nat.add_sub_cancel_left]
      exact ⟨_, _, rfl, by omega, by omega⟩

/-- The range of the second of four bytes leaves out what three bytes can say, and what is too large. -/
theorem leadByte?_four {n : Nat} (least : 0x10000 ≤ n) (most : n < 0x110000) :
    ∃ low high, leadByte? (byte (0xF0 + n / 0x40000)).toNat = some (3, low, high, n / 0x40000) ∧
      low ≤ 0x80 + n / 0x1000 % 0x40 ∧ 0x80 + n / 0x1000 % 0x40 ≤ high := by
  rw [toNat_byte (by omega)]
  unfold leadByte?
  rw [if_neg (by omega), if_neg (by omega), if_neg (by omega), if_neg (by omega), if_neg (by omega), if_neg (by omega)]
  by_cases first : n / 0x40000 = 0
  · rw [if_pos (by omega), first]
    exact ⟨_, _, rfl, by omega, by omega⟩
  · rw [if_neg (by omega)]
    by_cases last : n / 0x40000 = 4
    · rw [if_neg (by omega), if_pos (by omega), last]
      exact ⟨_, _, rfl, by omega, by omega⟩
    · rw [if_pos (by omega), Nat.add_sub_cancel_left]
      exact ⟨_, _, rfl, by omega, by omega⟩

theorem decodeUtf8_encodeChar (c : Char) (rest : List UInt8) : decodeUtf8 (encodeChar c ++ rest) = c :: decodeUtf8 rest := by
  have scalar : c.toNat < 0xD800 ∨ 0xDFFF < c.toNat ∧ c.toNat < 0x110000 := c.valid
  have same : Char.ofNat c.toNat = c := Char.ofNat_toNat c
  unfold encodeChar
  generalize c.toNat = n at scalar same ⊢
  simp only
  rw [← same]
  split
  · have lead : leadByte? (byte n).toNat = some (0, 0x80, 0xBF, n) := by
      rw [toNat_byte (by omega), leadByte?, if_pos (by omega)]
    have follow : followBytes 0 0x80 0xBF n ([] ++ rest) = (some n, rest) := rfl
    exact decodeUtf8_cons lead follow
  · split
    · have follow : followBytes 1 0x80 0xBF (n / 0x40) ([byte (0x80 + n % 0x40)] ++ rest) = (some n, rest) := by
        rw [List.singleton_append, followBytes_last (by omega) (by omega) (by omega)]
        congr 2
        omega
      exact decodeUtf8_cons (leadByte?_two (by omega) (by omega)) follow
    · split
      · obtain ⟨low, high, lead, least, most⟩ := leadByte?_three (by omega) (by omega) (by omega : n < 0xD800 ∨ 0xDFFF < n)
        have follow : followBytes 2 low high (n / 0x1000) ([byte (0x80 + n / 0x40 % 0x40), byte (0x80 + n % 0x40)] ++ rest) =
            (some n, rest) := by
          rw [List.cons_append, followBytes_cons (by omega) least most, List.singleton_append,
            followBytes_last (by omega) (by omega) (by omega)]
          congr 2
          omega
        exact decodeUtf8_cons lead follow
      · obtain ⟨low, high, lead, least, most⟩ := leadByte?_four (by omega : 0x10000 ≤ n) (by omega)
        have follow : followBytes 3 low high (n / 0x40000)
            ([byte (0x80 + n / 0x1000 % 0x40), byte (0x80 + n / 0x40 % 0x40), byte (0x80 + n % 0x40)] ++ rest) = (some n, rest) := by
          rw [List.cons_append, followBytes_cons (by omega) least most, List.cons_append,
            followBytes_cons (by omega) (by omega) (by omega), List.singleton_append,
            followBytes_last (by omega) (by omega) (by omega)]
          congr 2
          omega
        exact decodeUtf8_cons lead follow

theorem decodeUtf8_encodeUtf8 (cs : List Char) : decodeUtf8 (encodeUtf8 cs) = cs := by
  induction cs with
  | nil => rw [encodeUtf8, List.flatMap_nil, decodeUtf8]
  | cons c cs ih =>
    rw [encodeUtf8, List.flatMap_cons, decodeUtf8_encodeChar]
    exact congrArg (c :: ·) ih

end WorkflowCompiler.Codec
