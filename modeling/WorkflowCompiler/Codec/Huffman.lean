/-!
# Canonical Huffman codes

A code is given by the length of the code word of every symbol, zero for a symbol
without one. Words of one length are consecutive numbers in the order of the
symbols, and shorter words come first. Words are read highest bit first.
-/
namespace WorkflowCompiler.Codec

def longestWord : Nat := 15

/-- A code: how many words there are of each length from one on, and the symbols in the order of
    their words. -/
structure Huffman where
  counts : List Nat
  symbols : List Nat
deriving DecidableEq, Repr

def symbolsOfLength (lengths : List Nat) (length : Nat) : List Nat :=
  lengths.zipIdx.filterMap fun e => if e.1 = length then some e.2 else none

/-- The lengths that words can have. -/
def wordLengths : List Nat := (List.range longestWord).map (· + 1)

/-- The code with the given lengths. -/
def Huffman.ofLengths (lengths : List Nat) : Huffman :=
  { counts := wordLengths.map fun k => lengths.count k
    symbols := wordLengths.flatMap (symbolsOfLength lengths) }

/-- How many words of the greatest length are left over by the given counts; nothing if there are
    too many words. -/
def leftOver : Nat → List Nat → Option Nat
  | left, [] => some left
  | left, count :: rest => if 2 * left < count then none else leftOver (2 * left - count) rest

/-- Whether the words fit and leave nothing over. -/
def Huffman.isComplete (h : Huffman) : Bool := leftOver 1 h.counts == some 0

/-- Whether the words fit, and leave nothing over unless there is no word or just one, of one bit. -/
def Huffman.isUsable (h : Huffman) : Bool :=
  match leftOver 1 h.counts with
  | none => false
  | some left => left == 0 || h.symbols.isEmpty || h.counts.tail.all (· == 0)

/-- Reads a word, bit by bit: `code` is the word so far, `first` the first word of the current
    length, and `index` the number of words that are shorter. -/
def readWord (symbols : List Nat) : List Nat → Nat → Nat → Nat → List Bool → Option (Nat × List Bool)
  | [], _, _, _, _ => none
  | _ :: _, _, _, _, [] => none
  | count :: counts, code, first, index, bit :: bits =>
    let code := 2 * code + bit.toNat
    if code < first + count then (symbols[index + (code - first)]?).map fun s => (s, bits)
    else readWord symbols counts code (2 * (first + count)) (index + count) bits

/-- The symbol at the front, and what is left. -/
def Huffman.read (h : Huffman) (bits : List Bool) : Option (Nat × List Bool) :=
  readWord h.symbols h.counts 0 0 0 bits

end WorkflowCompiler.Codec
