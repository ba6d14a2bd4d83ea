import WorkflowCompiler.Codec.Bits
import WorkflowCompiler.Codec.Huffman

/-!
# Compressed blocks

A compressed stream is a sequence of blocks, the last one marked. A block is
stored as it is, or written in Huffman codes that are fixed or stand at its
beginning. Symbols are bytes, the end of the block, or lengths of earlier output
to be repeated from a distance. Output is kept in reverse order, so that a
distance is an index.
-/
namespace WorkflowCompiler.Codec

def endOfBlock : Nat := 256

/-- The least length and the number of further bits of each length symbol, from 257 on. -/
def lengthSymbols : List (Nat × Nat) :=
  [(3, 0), (4, 0), (5, 0), (6, 0), (7, 0), (8, 0), (9, 0), (10, 0), (11, 1), (13, 1), (15, 1), (17, 1),
    (19, 2), (23, 2), (27, 2), (31, 2), (35, 3), (43, 3), (51, 3), (59, 3), (67, 4), (83, 4), (99, 4),
    (115, 4), (131, 5), (163, 5), (195, 5), (227, 5), (258, 0)]

/-- The least distance and the number of further bits of each distance symbol. -/
def distanceSymbols : List (Nat × Nat) :=
  [(1, 0), (2, 0), (3, 0), (4, 0), (5, 1), (7, 1), (9, 2), (13, 2), (17, 3), (25, 3), (33, 4), (49, 4),
    (65, 5), (97, 5), (129, 6), (193, 6), (257, 7), (385, 7), (513, 8), (769, 8), (1025, 9), (1537, 9),
    (2049, 10), (3073, 10), (4097, 11), (6145, 11), (8193, 12), (12289, 12), (16385, 13), (24577, 13)]

/-- The fixed code of bytes and lengths. -/
def fixedSymbols : Huffman :=
  .ofLengths (List.replicate 144 8 ++ List.replicate 112 9 ++ List.replicate 24 7 ++ List.replicate 8 8)

def fixedDistances : Huffman := .ofLengths (List.replicate 32 5)

def readValue (table : List (Nat × Nat)) (symbol : Nat) (bits : List Bool) : Option (Nat × List Bool) :=
  match table[symbol]? with
  | none => none
  | some (least, width) => (readBits width bits).map fun r => (least + r.1, r.2)

def repeatOutput (distance : Nat) : Nat → List UInt8 → Option (List UInt8)
  | 0, out => some out
  | count + 1, out =>
    match out[distance - 1]? with
    | none => none
    | some b => repeatOutput distance count (b :: out)

/-- Reads symbols up to the end of a block, at most `fuel` of them. -/
def readSymbols (symbols distances : Huffman) : Nat → List Bool → List UInt8 →
    Option (List UInt8 × List Bool)
  | 0, _, _ => none
  | fuel + 1, bits, out =>
    match symbols.read bits with
    | none => none
    | some (s, bits) =>
      if s < endOfBlock then readSymbols symbols distances fuel bits (UInt8.ofNat s :: out)
      else if s = endOfBlock then some (out, bits)
      else do
        let (length, bits) ← readValue lengthSymbols (s - 257) bits
        let (d, bits) ← distances.read bits
        let (distance, bits) ← readValue distanceSymbols d bits
        let out ← repeatOutput distance length out
        readSymbols symbols distances fuel bits out

/-- Reads a block that is stored as it is. -/
def readStored (bits : List Bool) (out : List UInt8) : Option (List UInt8 × List Bool) := do
  let (length, bits) ← readBits 16 (alignToByte bits)
  let (complement, bits) ← readBits 16 bits
  if length + complement ≠ 0xFFFF then none
  else
    let (bytes, bits) ← readBytes length bits
    some (bytes.reverse ++ out, bits)

/-- The order in which the lengths of the code for lengths are written. -/
def lengthOrder : List Nat := [16, 17, 18, 0, 8, 7, 9, 6, 10, 5, 11, 4, 12, 3, 13, 2, 14, 1, 15]

/-- Fields of three bits, as many as given. -/
def readTriples : Nat → List Bool → Option (List Nat × List Bool)
  | 0, bits => some ([], bits)
  | count + 1, bits => do
    let (n, bits) ← readBits 3 bits
    (readTriples count bits).map fun r => (n :: r.1, r.2)

/-- Reads code lengths until there are as many as wanted; `read` holds them in reverse order. -/
def readLengths (code : Huffman) (wanted : Nat) : Nat → List Nat → List Bool →
    Option (List Nat × List Bool)
  | 0, _, _ => none
  | fuel + 1, read, bits =>
    if read.length = wanted then some (read.reverse, bits)
    else if wanted < read.length then none
    else do
      let (s, bits) ← code.read bits
      if s < 16 then readLengths code wanted fuel (s :: read) bits
      else if s = 16 then
        let last ← read.head?
        let (n, bits) ← readBits 2 bits
        readLengths code wanted fuel (List.replicate (3 + n) last ++ read) bits
      else if s = 17 then
        let (n, bits) ← readBits 3 bits
        readLengths code wanted fuel (List.replicate (3 + n) 0 ++ read) bits
      else
        let (n, bits) ← readBits 7 bits
        readLengths code wanted fuel (List.replicate (11 + n) 0 ++ read) bits

/-- Reads the codes at the beginning of a block. -/
def readCodes (bits : List Bool) : Option ((Huffman × Huffman) × List Bool) := do
  let (symbolCount, bits) ← readBits 5 bits
  let (distanceCount, bits) ← readBits 5 bits
  let (lengthCount, bits) ← readBits 4 bits
  let symbolCount := symbolCount + 257
  let distanceCount := distanceCount + 1
  if 286 < symbolCount ∨ 30 < distanceCount then none
  else
    let (triples, bits) ← readTriples (lengthCount + 4) bits
    let written := lengthOrder.zip triples
    let code := Huffman.ofLengths ((List.range 19).map fun s => (written.lookup s).getD 0)
    if !code.isComplete then none
    else
      let (lengths, bits) ←
        readLengths code (symbolCount + distanceCount) (symbolCount + distanceCount + 1) [] bits
      let symbols := Huffman.ofLengths (lengths.take symbolCount)
      let distances := Huffman.ofLengths (lengths.drop symbolCount)
      if lengths[endOfBlock]? = some 0 then none
      else if !symbols.isUsable || !distances.isUsable then none
      else some ((symbols, distances), bits)

/-- Reads one block after its mark. -/
def readBlock (bits : List Bool) (out : List UInt8) : Option (List UInt8 × List Bool) := do
  let (kind, bits) ← readBits 2 bits
  if kind = 0 then readStored bits out
  else if kind = 1 then readSymbols fixedSymbols fixedDistances (bits.length + 1) bits out
  else if kind = 2 then
    let ((symbols, distances), bits) ← readCodes bits
    readSymbols symbols distances (bits.length + 1) bits out
  else none

/-- Reads blocks up to the last one, at most `fuel` of them. -/
def readBlocks : Nat → List Bool → List UInt8 → Option (List UInt8 × List Bool)
  | 0, _, _ => none
  | fuel + 1, bits, out =>
    match readBits 1 bits with
    | none => none
    | some (last, bits) =>
      match readBlock bits out with
      | none => none
      | some (out, bits) => if last = 1 then some (out, bits) else readBlocks fuel bits out

/-- The output of a compressed stream, and the bits after it. Every block takes at least one bit. -/
def inflate (bits : List Bool) : Option (List UInt8 × List Bool) :=
  (readBlocks (bits.length + 1) bits []).map fun r => (r.1.reverse, r.2)

end WorkflowCompiler.Codec
