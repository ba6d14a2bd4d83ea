import WorkflowCompiler.Text.Units

/-!
# Base 64

Bytes in groups of three as four characters. Decoding goes by the low bytes of
code units: it takes both common alphabets, passes over every other byte, ends
at the first padding, and does not need it.
-/
namespace WorkflowCompiler.Codec

/-- The character of a number below 64. -/
def base64Char (n : Nat) : Char :=
  if n < 26 then Char.ofNat (65 + n)
  else if n < 52 then Char.ofNat (71 + n)
  else if n < 62 then Char.ofNat (n - 4)
  else if n = 62 then '+'
  else '/'

/-- The number of a byte, in either alphabet. -/
def base64Value? (b : Nat) : Option Nat :=
  if 65 ≤ b ∧ b ≤ 90 then some (b - 65)
  else if 97 ≤ b ∧ b ≤ 122 then some (b - 71)
  else if 48 ≤ b ∧ b ≤ 57 then some (b + 4)
  else if b = '+'.toNat ∨ b = '-'.toNat then some 62
  else if b = '/'.toNat ∨ b = '_'.toNat then some 63
  else none

/-- The characters of some bytes, padded to groups of four. -/
def encodeBase64 : List UInt8 → List Char
  | [] => []
  | [a] =>
    let n := a.toNat * 0x10000
    [base64Char (n / 0x40000), base64Char (n / 0x1000 % 0x40), '=', '=']
  | [a, b] =>
    let n := a.toNat * 0x10000 + b.toNat * 0x100
    [base64Char (n / 0x40000), base64Char (n / 0x1000 % 0x40), base64Char (n / 0x40 % 0x40), '=']
  | a :: b :: c :: rest =>
    let n := a.toNat * 0x10000 + b.toNat * 0x100 + c.toNat
    base64Char (n / 0x40000) :: base64Char (n / 0x1000 % 0x40) :: base64Char (n / 0x40 % 0x40) ::
      base64Char (n % 0x40) :: encodeBase64 rest

/-- The bytes of some numbers below 64; a last one alone does not make a byte. -/
def joinSextets : List Nat → List UInt8
  | a :: b :: c :: d :: rest =>
    let n := a * 0x40000 + b * 0x1000 + c * 0x40 + d
    UInt8.ofNat (n / 0x10000) :: UInt8.ofNat (n / 0x100 % 0x100) :: UInt8.ofNat (n % 0x100) ::
      joinSextets rest
  | [a, b, c] =>
    let n := a * 0x40000 + b * 0x1000 + c * 0x40
    [UInt8.ofNat (n / 0x10000), UInt8.ofNat (n / 0x100 % 0x100)]
  | [a, b] => [UInt8.ofNat ((a * 0x40000 + b * 0x1000) / 0x10000)]
  | _ => []

/-- The bytes of a text, of whose code units only the low bytes count. -/
def decodeBase64 (s : String) : List UInt8 :=
  let bytes := (Text.codeUnits s).map (· % 0x100)
  joinSextets ((bytes.takeWhile (· != '='.toNat)).filterMap base64Value?)

end WorkflowCompiler.Codec
