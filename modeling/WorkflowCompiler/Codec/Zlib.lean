import WorkflowCompiler.Codec.Deflate

/-!
# Compressed streams with a checksum

A stream begins with two bytes that name the method and ends with a checksum of
the output.
-/
namespace WorkflowCompiler.Codec

def adlerModulus : Nat := 65521

/-- The two sums of the checksum. -/
def adlerSums : List UInt8 → Nat × Nat → Nat × Nat
  | [], sums => sums
  | b :: rest, (low, high) =>
    let low := (low + b.toNat) % adlerModulus
    adlerSums rest (low, (high + low) % adlerModulus)

/-- The checksum of some bytes. -/
def adler (bs : List UInt8) : Nat :=
  let (low, high) := adlerSums bs (1, 0)
  high * 0x10000 + low

/-- The bytes of a number below `2 ^ 32`, highest first. -/
def bytesOfWord (n : Nat) : List UInt8 :=
  [UInt8.ofNat (n / 0x1000000), UInt8.ofNat (n / 0x10000 % 0x100), UInt8.ofNat (n / 0x100 % 0x100),
    UInt8.ofNat (n % 0x100)]

/-- Whether the first two bytes announce a stream that can be read: they are a multiple of 31, the
    method is the one used here with a window that is not too large, and no dictionary is needed. -/
def acceptsHeader (method flags : Nat) : Bool :=
  (method * 0x100 + flags) % 31 == 0 && method % 16 == 8 && method / 16 ≤ 7 && flags / 32 % 2 == 0

/-- The output of a stream, if it is whole and its checksum is right. What follows it is ignored. -/
def decompress : List UInt8 → Option (List UInt8)
  | method :: flags :: rest =>
    if acceptsHeader method.toNat flags.toNat then
      match inflate (bitsOfBytes rest) with
      | none => none
      | some (out, bits) =>
        match readBytes 4 (alignToByte bits) with
        | none => none
        | some (sum, _) => if sum = bytesOfWord (adler out) then some out else none
    else none
  | _ => none

/-- A stream with the given output. -/
def compress (bs : List UInt8) : List UInt8 := 0x78 :: 0x9C :: deflate bs ++ bytesOfWord (adler bs)

end WorkflowCompiler.Codec
