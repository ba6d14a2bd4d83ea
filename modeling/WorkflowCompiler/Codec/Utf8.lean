/-!
# UTF-8

Texts as bytes and back. Decoding never fails: where the bytes are not UTF-8, the
longest beginning of a character that is there stands for one replacement
character.
-/
namespace WorkflowCompiler.Codec

/-- A byte of a number below 256. -/
def byte (n : Nat) : UInt8 := UInt8.ofNat n

/-- The bytes of a character. -/
def encodeChar (c : Char) : List UInt8 :=
  let n := c.toNat
  if n < 0x80 then [byte n]
  else if n < 0x800 then [byte (0xC0 + n / 0x40), byte (0x80 + n % 0x40)]
  else if n < 0x10000 then
    [byte (0xE0 + n / 0x1000), byte (0x80 + n / 0x40 % 0x40), byte (0x80 + n % 0x40)]
  else
    [byte (0xF0 + n / 0x40000), byte (0x80 + n / 0x1000 % 0x40), byte (0x80 + n / 0x40 % 0x40),
      byte (0x80 + n % 0x40)]

/-- The bytes of a text. -/
def encodeUtf8 (cs : List Char) : List UInt8 := cs.flatMap encodeChar

/-- What a first byte announces: how many bytes follow, the range of the first of them, and
    the bits of the byte itself. -/
def leadByte? (b : Nat) : Option (Nat × Nat × Nat × Nat) :=
  if b < 0x80 then some (0, 0x80, 0xBF, b)
  else if b < 0xC2 then none
  else if b < 0xE0 then some (1, 0x80, 0xBF, b - 0xC0)
  else if b = 0xE0 then some (2, 0xA0, 0xBF, 0)
  else if b = 0xED then some (2, 0x80, 0x9F, b - 0xE0)
  else if b < 0xF0 then some (2, 0x80, 0xBF, b - 0xE0)
  else if b = 0xF0 then some (3, 0x90, 0xBF, 0)
  else if b < 0xF4 then some (3, 0x80, 0xBF, b - 0xF0)
  else if b = 0xF4 then some (3, 0x80, 0x8F, 4)
  else none

/-- Adds the following bytes to a value, as long as they are in range: the value, if all of them
    were there, and what is left. -/
def followBytes (count low high value : Nat) (bs : List UInt8) : Option Nat × List UInt8 :=
  match count, bs with
  | 0, bs => (some value, bs)
  | _ + 1, [] => (none, [])
  | count + 1, b :: rest =>
    if low ≤ b.toNat ∧ b.toNat ≤ high then
      followBytes count 0x80 0xBF (value * 0x40 + (b.toNat - 0x80)) rest
    else (none, b :: rest)

theorem length_followBytes_le (count low high value : Nat) (bs : List UInt8) :
    (followBytes count low high value bs).2.length ≤ bs.length := by
  induction bs generalizing count low high value with
  | nil => cases count <;> exact Nat.le_refl _
  | cons b rest ih =>
    cases count with
    | zero => exact Nat.le_refl _
    | succ count =>
      unfold followBytes
      split
      · exact Nat.le_succ_of_le (ih ..)
      · exact Nat.le_refl _

/-- The text of some bytes. -/
def decodeUtf8 (bs : List UInt8) : List Char :=
  match bs with
  | [] => []
  | b :: rest =>
    match leadByte? b.toNat with
    | none => '\uFFFD' :: decodeUtf8 rest
    | some (count, low, high, value) =>
      let r := followBytes count low high value rest
      (match r.1 with
        | some n => Char.ofNat n
        | none => '\uFFFD') :: decodeUtf8 r.2
termination_by bs.length
decreasing_by
  · simp
  · have := length_followBytes_le count low high value rest
    simp only [List.length_cons]
    omega

end WorkflowCompiler.Codec
