/-!
# Code lengths from weights

The lengths of the words of a Huffman code for symbols with given weights. The
two lightest trees are joined until there is one; of trees of one weight the
flatter one counts as lighter. Words that come out too long are shortened at the
cost of others.
-/
namespace WorkflowCompiler.Codec

/-- Trees under construction. The first numbers are the symbols. -/
structure Forest where
  weight : Array Nat
  depth : Array Nat
  /-- The tree that a tree was joined into. -/
  parent : Array Nat
  /-- The trees that are left, as a heap with the lightest on top. -/
  heap : Array Nat
  /-- The trees that were joined, the last ones first. -/
  joined : List Nat := []

namespace Forest

/-- Whether a tree counts as lighter than another one. -/
def lighter (f : Forest) (a b : Nat) : Bool :=
  let wa := f.weight.getD a 0
  let wb := f.weight.getD b 0
  wa < wb || (wa == wb && f.depth.getD a 0 ≤ f.depth.getD b 0)

/-- The lighter child of a place in the heap, if it has children. -/
def child? (f : Forest) (place : Nat) : Option Nat :=
  match f.heap[2 * place + 1]?, f.heap[2 * place + 2]? with
  | none, _ => none
  | some _, none => some (2 * place + 1)
  | some left, some right => some (if f.lighter right left then 2 * place + 2 else 2 * place + 1)

/-- Moves the tree at a place down in the heap until no child is lighter. -/
def sift : Nat → Nat → Forest → Forest
  | 0, _, f => f
  | fuel + 1, place, f =>
    match f.child? place with
    | none => f
    | some child =>
      let tree := f.heap.getD place 0
      let other := f.heap.getD child 0
      if f.lighter tree other then f
      else sift fuel child { f with heap := (f.heap.setIfInBounds place other).setIfInBounds child tree }

/-- Moves the tree at a place down in the heap. -/
def settle (f : Forest) (place : Nat) : Forest := sift f.heap.size place f

/-- Makes a heap of the trees that are left. -/
def arrange (f : Forest) : Forest :=
  (List.range (f.heap.size / 2)).reverse.foldl settle f

/-- Takes the lightest tree off. -/
def pop (f : Forest) : Nat × Forest :=
  let top := f.heap.getD 0 0
  let last := f.heap.back?.getD 0
  (top, settle { f with heap := f.heap.pop.setIfInBounds 0 last } 0)

/-- Joins the two lightest trees. -/
def join (f : Forest) : Forest :=
  let (a, f) := f.pop
  let b := f.heap.getD 0 0
  let node := f.weight.size
  settle
    { weight := f.weight.push (f.weight.getD a 0 + f.weight.getD b 0)
      depth := f.depth.push (max (f.depth.getD a 0) (f.depth.getD b 0) + 1)
      parent := ((f.parent.setIfInBounds a node).setIfInBounds b node).push 0
      heap := f.heap.setIfInBounds 0 node
      joined := b :: a :: f.joined } 0

/-- Joins trees until one is left, which is put in front of those that were joined. -/
def joinAll : Nat → Forest → Forest
  | 0, f => f
  | fuel + 1, f =>
    if f.heap.size < 2 then { f with joined := f.heap.getD 0 0 :: f.joined } else joinAll fuel f.join

end Forest

/-- The weights with at least two symbols that have one; missing ones are made up at the front. -/
def atLeastTwo : Nat → List Nat → List Nat
  | 0, weights => weights
  | fuel + 1, weights =>
    let used := weights.zipIdx.filter fun e => e.1 != 0
    if 2 ≤ used.length then weights
    else
      let next := match used.getLast? with
        | none => 0
        | some (_, last) => if last < 2 then last + 1 else 0
      atLeastTwo fuel (weights.set next 1)

def usedSymbols (weights : List Nat) : List Nat :=
  weights.zipIdx.filterMap fun e => if e.1 = 0 then none else some e.2

/-- The lengths of all trees below the root, at most `limit`, and how many were longer. -/
def cutLengths (limit : Nat) (parent : Array Nat) : List Nat → Array Nat × Nat → Array Nat × Nat
  | [], r => r
  | tree :: rest, (lengths, cut) =>
    let length := lengths.getD (parent.getD tree 0) 0 + 1
    if limit < length then cutLengths limit parent rest (lengths.setIfInBounds tree limit, cut + 1)
    else cutLengths limit parent rest (lengths.setIfInBounds tree length, cut)

/-- The greatest length below `length` that some word has. -/
def lengthBelow (counts : Array Nat) : Nat → Nat
  | 0 => 0
  | length + 1 => if counts.getD length 0 = 0 then lengthBelow counts length else length

/-- Changes how many words have each length until there is room for those that were cut. -/
def makeRoom (limit : Nat) : Nat → Nat → Array Nat → Array Nat
  | 0, _, counts => counts
  | _ + 1, 0, counts => counts
  | fuel + 1, cut + 1, counts =>
    let length := lengthBelow counts limit
    let counts := counts.modify length (· - 1)
    let counts := counts.modify (length + 1) (· + 2)
    let counts := counts.modify limit (· - 1)
    makeRoom limit fuel (cut - 1) counts

/-- Lengths for symbols from the rarest on, where it is given how many words have each length. -/
def assignLengths (limit : Nat) (counts : Array Nat) (rarestFirst : List Nat) : List (Nat × Nat) :=
  rarestFirst.zip
    ((List.range (limit + 1)).reverse.flatMap fun length => List.replicate (counts.getD length 0) length)

/-- The length of the word of every symbol, at most `limit`; zero for a symbol without weight. -/
def codeLengths (limit : Nat) (weights : List Nat) : List Nat :=
  let weights := atLeastTwo 2 weights
  let size := weights.length
  let start : Forest :=
    { weight := weights.toArray
      depth := (List.replicate size 0).toArray
      parent := (List.replicate size 0).toArray
      heap := (usedSymbols weights).toArray }
  let f := start.arrange.joinAll (size + 1)
  let (lengths, cut) := cutLengths limit f.parent f.joined.tail ((f.weight.map fun _ => 0), 0)
  let leaves := f.joined.filter (· < size)
  if cut = 0 then (List.range size).map fun s => lengths.getD s 0
  else
    let counts := leaves.foldl (fun (c : Array Nat) s => c.modify (lengths.getD s 0) (· + 1))
      (List.replicate (limit + 1) 0).toArray
    let assigned := assignLengths limit (makeRoom limit cut cut counts) leaves.reverse
    (List.range size).map fun s => (assigned.lookup s).getD 0

end WorkflowCompiler.Codec
