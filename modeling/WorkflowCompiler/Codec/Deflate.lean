import WorkflowCompiler.Codec.CodeLengths
import WorkflowCompiler.Codec.Inflate
import WorkflowCompiler.Codec.Repetition

/-!
# Writing compressed blocks

Tokens are written in blocks, each in the smallest of three forms: stored as it
is, in the fixed codes, or in codes of its own, which stand at its beginning.
-/
namespace WorkflowCompiler.Codec

/-! ## Symbols -/

/-- A symbol, and the value and number of further bits behind it. -/
structure Symbol where
  code : Nat
  extra : Nat := 0
  width : Nat := 0
deriving DecidableEq, Repr, Inhabited

/-- The last symbol of a table whose least value is not above the given one. -/
def symbolOf (table : List (Nat × Nat)) (value : Nat) : Symbol :=
  match (table.zipIdx.filter fun e => e.1.1 ≤ value).getLast? with
  | some ((least, width), index) => ⟨index, value - least, width⟩
  | none => ⟨0, 0, 0⟩

def Token.symbol : Token → Symbol
  | .literal b => ⟨b.toNat, 0, 0⟩
  | .copy length _ =>
    let s := symbolOf lengthSymbols length
    { s with code := 257 + s.code }

def Token.distance? : Token → Option Symbol
  | .literal _ => none
  | .copy _ distance => some (symbolOf distanceSymbols distance)

/-- How often each of `count` symbols occurs. -/
def frequencies (count : Nat) (symbols : List Nat) : List Nat :=
  (symbols.foldl (fun (a : Array Nat) s => a.modify s (· + 1)) (List.replicate count 0).toArray).toList

/-! ## Words -/

/-- The first word of each length from one on; `word` is the first one of the current length. -/
def firstWords (word : Nat) : List Nat → List Nat
  | [] => []
  | count :: counts => word :: firstWords (2 * (word + count)) counts

/-- The bits of the word of every symbol, highest bit first. -/
def wordsOf (lengths : List Nat) : Array (List Bool) :=
  let h := Huffman.ofLengths lengths
  let step := fun (s : Array (List Bool) × Array Nat) (length : Nat) =>
    if length = 0 then (s.1.push [], s.2)
    else
      let word := s.2.getD (length - 1) 0
      (s.1.push (bitsOfNat length word).reverse, s.2.modify (length - 1) (· + 1))
  (lengths.foldl step (#[], (firstWords 0 h.counts).toArray)).1

def symbolBits (words : Array (List Bool)) (s : Symbol) : List Bool :=
  words.getD s.code [] ++ bitsOfNat s.width s.extra

def tokenBits (symbols distances : Array (List Bool)) (t : Token) : List Bool :=
  symbolBits symbols t.symbol ++
    match t.distance? with
    | none => []
    | some d => symbolBits distances d

def contentBits (symbols distances : Array (List Bool)) (tokens : List Token) : List Bool :=
  tokens.flatMap (tokenBits symbols distances) ++ symbols.getD endOfBlock []

/-! ## Codes at the beginning of a block -/

/-- The longest run of one length that is written as one, and the shortest that is not written
    length by length; they depend on the length and on the one before. -/
def runLimits (length : Nat) (before : Option Nat) : Nat × Nat :=
  if length = 0 then (138, 3) else if before = some length then (6, 3) else (7, 4)

def runSymbols (length count least : Nat) (before : Option Nat) : List Symbol :=
  if count < least then List.replicate count ⟨length, 0, 0⟩
  else if length = 0 then
    if count ≤ 10 then [⟨17, count - 3, 3⟩] else [⟨18, count - 11, 7⟩]
  else if before = some length then [⟨16, count - 3, 2⟩]
  else [⟨length, 0, 0⟩, ⟨16, count - 4, 2⟩]

/-- How often a length stands in front, up to a limit. -/
def runCount (length : Nat) : Nat → List Nat → Nat
  | limit + 1, l :: rest => if l = length then runCount length limit rest + 1 else 0
  | _, _ => 0

def lengthRuns (before : Option Nat) (lengths : List Nat) : List Symbol :=
  match lengths with
  | [] => []
  | length :: rest =>
    let (most, least) := runLimits length before
    let further := runCount length (most - 1) rest
    runSymbols length (further + 1) least before ++ lengthRuns (some length) (rest.drop further)
termination_by lengths.length
decreasing_by
  simp only [List.length_drop, List.length_cons]
  omega

/-- The list up to its last entry that is not zero, but at least `least` entries. -/
def dropZeros (least : Nat) (lengths : List Nat) : List Nat :=
  let kept := (lengths.reverse.dropWhile (· == 0)).length
  lengths.take (max least kept)

/-- The bits that announce the codes of a block. -/
def codeBits (symbolLengths distanceLengths : List Nat) : List Bool :=
  let symbolLengths := dropZeros 257 symbolLengths
  let distanceLengths := dropZeros 1 distanceLengths
  let runs := lengthRuns none symbolLengths ++ lengthRuns none distanceLengths
  let lengths := codeLengths 7 (frequencies 19 (runs.map Symbol.code))
  let written := dropZeros 4 (lengthOrder.map fun s => lengths.getD s 0)
  let words := wordsOf lengths
  bitsOfNat 5 (symbolLengths.length - 257) ++ bitsOfNat 5 (distanceLengths.length - 1) ++
    bitsOfNat 4 (written.length - 4) ++ written.flatMap (bitsOfNat 3) ++ runs.flatMap (symbolBits words)

/-! ## Blocks -/

def fixedLengths : List Nat :=
  List.replicate 144 8 ++ List.replicate 112 9 ++ List.replicate 24 7 ++ List.replicate 8 8

def fixedBits (tokens : List Token) : List Bool :=
  contentBits (wordsOf fixedLengths) (wordsOf (List.replicate 32 5)) tokens

def ownBits (tokens : List Token) : List Bool :=
  let symbols := codeLengths longestWord
    (frequencies 286 (endOfBlock :: tokens.map fun t => t.symbol.code))
  let distances := codeLengths longestWord
    (frequencies 30 ((tokens.filterMap Token.distance?).map Symbol.code))
  codeBits symbols distances ++ contentBits (wordsOf symbols) (wordsOf distances) tokens

/-- Bits up to a whole number of bytes. -/
def padToByte (used : Nat) : List Bool := List.replicate ((8 - used % 8) % 8) false

/-- The bytes that tokens take in a form with the given number of bits. -/
def bytesFor (bits : Nat) : Nat := (bits + 10) / 8

/-- A block, where `used` bits stand before it. -/
def blockBits (last : Bool) (used : Nat) (bytes : List UInt8) (tokens : List Token) : List Bool :=
  let fixed := fixedBits tokens
  let own := ownBits tokens
  let coded := min (bytesFor fixed.length) (bytesFor own.length)
  if bytes.length + 4 ≤ coded then
    last :: false :: false :: padToByte (used + 3) ++ bitsOfNat 16 bytes.length ++
      bitsOfNat 16 (0xFFFF - bytes.length) ++ bitsOfBytes bytes
  else if bytesFor fixed.length ≤ bytesFor own.length then last :: true :: false :: fixed
  else last :: false :: true :: own

/-- The most tokens of a block. -/
def blockLimit : Nat := 16383

/-- The blocks of tokens that stand for some bytes, where `used` bits stand before them. -/
def blocksBits (used : Nat) (bytes : List UInt8) (tokens : List Token) : List Bool :=
  if _h : blockLimit ≤ tokens.length then
    let front := tokens.take blockLimit
    let size := front.foldr (fun t n => t.size + n) 0
    let block := blockBits false used (bytes.take size) front
    block ++ blocksBits (used + block.length) (bytes.drop size) (tokens.drop blockLimit)
  else blockBits true used bytes tokens
termination_by tokens.length
decreasing_by
  simp only [List.length_drop, blockLimit] at *
  omega

/-- The byte of up to eight bits, the lowest first. -/
def byteOfBits (bits : List Bool) : UInt8 := UInt8.ofNat (natOfBits bits)

/-- The bytes of bits; the last one is filled up with zeros. -/
def bytesOfBits (bits : List Bool) : List UInt8 :=
  match bits with
  | [] => []
  | bit :: rest => byteOfBits ((bit :: rest).take 8) :: bytesOfBits (rest.drop 7)
termination_by bits.length
decreasing_by
  simp only [List.length_drop, List.length_cons]
  omega

/-- Bytes as compressed blocks. -/
def deflate (bytes : List UInt8) : List UInt8 :=
  bytesOfBits (blocksBits 0 bytes (tokensOf bytes.toArray))

end WorkflowCompiler.Codec
