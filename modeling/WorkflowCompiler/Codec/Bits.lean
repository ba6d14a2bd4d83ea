/-!
# Bits

Bytes as bits, the lowest bit of each byte first. Reading takes fields from the
front; since bytes have eight bits, what is left of a last byte is known from
the number of bits left.
-/
namespace WorkflowCompiler.Codec

/-- The bits of a number, lowest first. -/
def bitsOfNat : Nat → Nat → List Bool
  | 0, _ => []
  | count + 1, n => (n % 2 == 1) :: bitsOfNat count (n / 2)

/-- The number of some bits, lowest first. -/
def natOfBits : List Bool → Nat
  | [] => 0
  | b :: rest => b.toNat + 2 * natOfBits rest

def bitsOfBytes (bs : List UInt8) : List Bool := bs.flatMap fun b => bitsOfNat 8 b.toNat

/-- A field of the given width at the front, and what is left. -/
def readBits (width : Nat) (bits : List Bool) : Option (Nat × List Bool) :=
  if bits.length < width then none else some (natOfBits (bits.take width), bits.drop width)

/-- Drops what is left of a byte that was begun. -/
def alignToByte (bits : List Bool) : List Bool := bits.drop (bits.length % 8)

/-- As many bytes as given from the front, and what is left. -/
def readBytes : Nat → List Bool → Option (List UInt8 × List Bool)
  | 0, bits => some ([], bits)
  | count + 1, bits =>
    match readBits 8 bits with
    | none => none
    | some (b, rest) => (readBytes count rest).map fun r => (UInt8.ofNat b :: r.1, r.2)

end WorkflowCompiler.Codec
