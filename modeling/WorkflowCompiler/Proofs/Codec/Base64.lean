import WorkflowCompiler.Codec.Base64

/-!
Base 64 loses nothing: decoding gives back the bytes that were encoded (`decodeBase64_encodeBase64`).
-/
namespace WorkflowCompiler.Codec
open Text

theorem base64Value?_base64Char {n : Nat} (small : n < 64) : base64Value? (base64Char n).toNat = some n := by
  have all : ∀ n < 64, base64Value? (base64Char n).toNat = some n := by decide
  exact all n small

theorem base64Char_ne {n : Nat} (small : n < 64) : (base64Char n).toNat < 0x80 ∧ (base64Char n).toNat ≠ '='.toNat := by
  have all : ∀ n < 64, (base64Char n).toNat < 0x80 ∧ (base64Char n).toNat ≠ '='.toNat := by decide
  exact all n small

/-- The numbers that the characters of a text stand for, up to the padding. -/
def sextets (cs : List Char) : List Nat :=
  ((((cs.flatMap unitsList).map (· % 0x100)).takeWhile (· != '='.toNat)).filterMap base64Value?)

theorem sextets_cons {n : Nat} (small : n < 64) (cs : List Char) : sextets (base64Char n :: cs) = n :: sextets cs := by
  obtain ⟨ascii, other⟩ := base64Char_ne small
  have units : unitsList (base64Char n) = [(base64Char n).toNat] := if_pos (by omega)
  have low : (base64Char n).toNat % 0x100 = (base64Char n).toNat := Nat.mod_eq_of_lt (by omega)
  rw [sextets, List.flatMap_cons, units, List.singleton_append, List.map_cons, low, List.takeWhile_cons_of_pos (by simpa using other),
    List.filterMap_cons, base64Value?_base64Char small]
  rfl

theorem sextets_padding (cs : List Char) : sextets ('=' :: cs) = [] := rfl

/-- The bytes of a number below `2 ^ 24` that is split into four parts of six bits. -/
theorem joinParts {a b c n : Nat} (small : a < 0x100 ∧ b < 0x100 ∧ c < 0x100) (sum : n = a * 0x10000 + b * 0x100 + c) :
    n / 0x40000 < 64 ∧ n / 0x40000 * 0x40000 + n / 0x1000 % 0x40 * 0x1000 + n / 0x40 % 0x40 * 0x40 + n % 0x40 = n ∧
      n / 0x10000 = a ∧ n / 0x100 % 0x100 = b ∧ n % 0x100 = c := by
  omega

theorem joinSextets_sextets (bs : List UInt8) : joinSextets (sextets (encodeBase64 bs)) = bs := by
  have byte (a : UInt8) : a.toNat < 0x100 := a.toNat_lt
  fun_induction encodeBase64 bs with
  | case1 => rfl
  | case2 a n =>
    obtain ⟨first, whole, high, _, _⟩ := joinParts (n := n) ⟨byte a, by decide, by decide⟩ (by omega : n = a.toNat * 0x10000 + 0 * 0x100 + 0)
    have rest : n / 0x40 % 0x40 * 0x40 + n % 0x40 = 0 := by omega
    rw [sextets_cons first, sextets_cons (Nat.mod_lt _ (by decide)), sextets_padding]
    rw [Nat.add_assoc, rest, Nat.add_zero] at whole
    simp [joinSextets, whole, high]
  | case3 a b n =>
    obtain ⟨first, whole, high, middle, _⟩ := joinParts (n := n) ⟨byte a, byte b, by decide⟩ (by omega : n = a.toNat * 0x10000 + b.toNat * 0x100 + 0)
    have rest : n % 0x40 = 0 := by omega
    rw [sextets_cons first, sextets_cons (Nat.mod_lt _ (by decide)), sextets_cons (Nat.mod_lt _ (by decide)), sextets_padding]
    rw [rest, Nat.add_zero] at whole
    simp [joinSextets, whole, high, middle]
  | case4 a b c rest n ih =>
    obtain ⟨first, whole, high, middle, low⟩ := joinParts (n := n) ⟨byte a, byte b, byte c⟩ rfl
    rw [sextets_cons first, sextets_cons (Nat.mod_lt _ (by decide)), sextets_cons (Nat.mod_lt _ (by decide)),
      sextets_cons (Nat.mod_lt _ (by decide)), joinSextets]
    simp only [whole, high, middle, low, ih, UInt8.ofNat_toNat]

theorem decodeBase64_encodeBase64 (bs : List UInt8) : decodeBase64 (String.ofList (encodeBase64 bs)) = bs := by
  rw [decodeBase64, codeUnits, String.toList_ofList]
  exact joinSextets_sextets bs

end WorkflowCompiler.Codec
