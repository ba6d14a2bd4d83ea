import WorkflowCompiler.Yaml.Scalar
import WorkflowCompiler.Yaml.Tree

/-!
# Nodes

A tree is a node if all that stands between its parts is sound: comments have
white space in front, tabs do not indent, marks and commas are where they belong,
every key is on one line, is followed by a value's mark before long, and occurs
once. A part that is left out is null. A node comes with the place where what
belongs to it ends.
-/
namespace WorkflowCompiler.Yaml
open Text (units)

/-- A node. An entry of a mapping in braces may have no value at all. -/
inductive Node
  | scalar (kind : TokenKind) (text : List Char) (value : Value)
  | list (items : List Node)
  | mapping (entries : List (Node × Option Node))
deriving Repr, Inhabited

/-- The node of a part that is left out. -/
def Node.empty : Node := .scalar .plain [] .null

/-! ## What stands between the parts -/

/-- How many code units tokens take. -/
def widthOf (tokens : List Token) : Nat := tokens.foldr (fun t n => units t.text + n) 0

/-- The place of a part that is left out behind some tokens, which end at the given place: before the
    line breaks and comments at their end, but behind blanks. -/
def emptyPlace (stop : Nat) (before : List Token) : Nat :=
  let trailing := (before.reverse.takeWhile Token.isVoid).reverse
  let blanks := if trailing.length = before.length then [] else trailing.takeWhile (·.isOf .space)
  stop - widthOf trailing + widthOf blanks

/-- The place where tokens after a node end. Only white space and comments may stand there. -/
def endOf? (spaced : Bool) (place : Nat) : List Token → Option Nat
  | [] => some place
  | t :: rest =>
    let next := place + units t.text
    match t.kind with
    | .space | .newline => endOf? true next rest
    | .comment => if spaced then endOf? spaced next rest else none
    | _ => none

/-- Where a lead stands: what it leads to, and what it may hold. -/
structure LeadPlace where
  inFlow : Bool := false
  /-- The mark that it can hold. -/
  mark : Option TokenKind := none
  /-- What follows it. -/
  next : Option Tree := none
  /-- Where it begins. -/
  offset : Nat
  /-- The indent of the collection that it stands in. -/
  indent : Nat
  /-- Whether it begins like a line. -/
  fresh : Bool

/-- What stands in front of a node. -/
structure Lead where
  mark : Option Token := none
  hasComma : Bool := false
  hasBreak : Bool := false
  /-- Whether a comment can follow. -/
  spaced : Bool
  /-- Whether only white space is on the line. -/
  onFreshLine : Bool
  tab : Option Token := none

/-- Whether a place is in front of brackets at the top of a document. -/
def LeadPlace.opensDocument (p : LeadPlace) : Bool :=
  p.mark == some .documentStart && match p.next with
    | some (.flow ..) => true
    | _ => false

def Lead.add (p : LeadPlace) (l : Lead) (t : Token) : Option Lead :=
  if l.tab.isSome && l.onFreshLine && t.kind != .comment && t.kind != .newline then none
  else
    let l := { l with tab := none }
    match t.kind with
    | .space =>
      let tab := if !p.inFlow && !p.opensDocument && '\t' ∈ t.text then some t else none
      some { l with tab, spaced := true }
    | .comment => if l.spaced then some { l with onFreshLine := false } else none
    | .newline => some { l with onFreshLine := true, hasBreak := true, spaced := true }
    | kind =>
      if p.mark = some kind then
        if l.mark.isSome then none
        else some { l with mark := some t, onFreshLine := kind == .itemMark, spaced := false }
      else if p.inFlow ∧ kind = .comma then
        if l.hasComma then none
        else some { l with hasComma := true, onFreshLine := false, spaced := false }
      else none

/-- The lead that tokens make up, and where it ends. A tab may not indent what follows, nor stand in
    front of a block collection. -/
def lead? (p : LeadPlace) (tokens : List Token) : Option (Lead × Nat) := do
  let l ← tokens.foldlM (Lead.add p) { spaced := p.fresh, onFreshLine := p.fresh }
  match l.tab with
  | some tab =>
    if (l.onFreshLine && tab.indent ≤ p.indent) || (p.next.map Tree.isBlock).getD false then none
  | none => pure ()
  pure (l, match tokens.getLast? with
    | some t => t.offset + units t.text
    | none => p.offset)

/-! ## Keys -/

/-- Whether there is a line break among tokens. -/
def hasBreak (tokens : List Token) : Bool := tokens.any (·.isOf .newline)

mutual

/-- Whether a tree is not on one line. -/
def Tree.spansLines : Tree → Bool
  | .scalar t after => '\n' ∈ t.text || hasBreak (after.getD [])
  | .flow _ _ items _ => itemsSpanLines items
  | .block .. => true

/-- Whether items are not on one line. -/
def itemsSpanLines : List (Item Tree) → Bool
  | [] => false
  | ⟨start, key, sep, value⟩ :: rest =>
    hasBreak start || hasBreak (sep.getD []) || partSpansLines key || partSpansLines value ||
      itemsSpanLines rest

/-- Whether a part is there and not on one line. -/
def partSpansLines : Option Tree → Bool
  | none => false
  | some t => t.spansLines

end

/-- Whether two nodes are the same key. Only scalars are compared, by what they stand for. -/
def Node.sameKey : Node → Node → Bool
  | .scalar _ _ a, .scalar _ _ b =>
    match a, b with
    | .null, .null => true
    | .bool a, .bool b => a == b
    | .text a, .text b => a == b
    | .number a, .number b => a.equals b
    | _, _ => false
  | _, _ => false

def isNewKey (key : Node) (entries : List (Node × Option Node)) : Bool :=
  !(entries.any fun e => e.1.sameKey key)

/-- How far behind the beginning of a key the mark of its value may be. -/
def keyReach : Nat := 1024

/-! ## Collections -/

/-- A part of a flow collection: an entry, or an item without a key. -/
inductive FlowPart
  | entry (key : Node) (value : Option Node)
  | item (node : Node)

def FlowPart.toEntry : FlowPart → Node × Option Node
  | .entry key value => (key, value)
  | .item node => (node, none)

/-- The item that a part of a list is: an entry is a mapping of its own. -/
def FlowPart.toItem : FlowPart → Node
  | .entry key value => .mapping [(key, value)]
  | .item node => node

/-- Whether an entry of a flow list is on one line up to the mark of its value, and not too long. -/
def isShortEntry (start : Nat) (mark : Token) (sep : List Token) : Bool :=
  !hasBreak (sep.takeWhile (· != mark)) && mark.offset ≤ start + keyReach

mutual

def Tree.node? : Tree → Option (Node × Nat)
  | .scalar t after => do
    let text ← scalarText? t
    let stop ← endOf? false (t.offset + units t.text) (after.getD [])
    pure (.scalar t.kind text (scalarValue t.kind text), stop)
  | .block true offset indent items =>
    (entries? indent offset none [] items).map fun r => (.mapping r.1, r.2)
  | .block false offset indent items =>
    (items? indent offset none [] items).map fun r => (.list r.1, r.2)
  | .flow opening indent items after => do
    let isMapping := opening.kind == .openMapping
    let (parts, _) ← flowParts? isMapping indent true (opening.offset + 1) [] items
    match after with
    | [] => none
    | closing :: more =>
      if closing.kind != (if isMapping then .closeMapping else .closeList) then none
      else
        let stop ← endOf? false (closing.offset + 1) more
        pure (if isMapping then .mapping (parts.map FlowPart.toEntry) else .list (parts.map FlowPart.toItem),
          stop)

def partNode? (place : Nat) : Option Tree → Option (Node × Nat)
  | none => some (.empty, place)
  | some t => t.node?

/-- The entries of a block mapping, after those given in reverse order. White space that stands for no
    entry is remembered by its end: no entry may follow it. -/
def entries? (indent offset : Nat) (void : Option Nat) (entries : List (Node × Option Node)) :
    List (Item Tree) → Option (List (Node × Option Node) × Nat)
  | [] =>
    let stop := void.getD offset
    if stop < offset then none else some (entries.reverse, stop)
  | ⟨start, key, sep, value⟩ :: rest => do
    let (_, keyStart) ← lead? { next := key, offset, indent, fresh := true } start
    match sep with
    | none => entries? indent offset (some keyStart) entries rest
    | some sep =>
      if (key.map fun k => k.isSequence || k.indent != indent || k.spansLines).getD false then none
      else
        let (keyNode, keyEnd) ← partNode? (emptyPlace keyStart start) key
        let (valueLead, valueStart) ←
          lead? { mark := some .valueMark, next := value, offset := keyEnd, indent, fresh := key.isNone } sep
        let mark ← valueLead.mark
        if !isNewKey keyNode entries || mark.offset > keyStart + keyReach then none
        else if (value.map Tree.isBlockMapping).getD false && !valueLead.hasBreak then none
        else
          let (valueNode, stop) ← partNode? (emptyPlace valueStart sep) value
          entries? indent stop void ((keyNode, some valueNode) :: entries) rest

/-- The items of a block sequence, after those given in reverse order, with the end of white space that
    stands for no item. -/
def items? (indent offset : Nat) (void : Option Nat) (nodes : List Node) :
    List (Item Tree) → Option (List Node × Nat)
  | [] => some (nodes.reverse, void.getD offset)
  | ⟨start, _, _, value⟩ :: rest => do
    let (before, place) ← lead? { mark := some .itemMark, next := value, offset, indent, fresh := true } start
    match before.mark with
    | none => if value.isSome then none else items? indent offset (some place) nodes rest
    | some _ =>
      let (node, stop) ← partNode? (emptyPlace place start) value
      items? indent stop void (node :: nodes) rest

/-- The parts of a flow collection, after those given in reverse order. -/
def flowParts? (isMapping : Bool) (indent : Nat) (isFirst : Bool) (offset : Nat) (parts : List FlowPart) :
    List (Item Tree) → Option (List FlowPart × Nat)
  | [] => some (parts.reverse, offset)
  | ⟨start, key, sep, value⟩ :: rest => do
    let (before, place) ← lead? { inFlow := true, next := key, offset, indent, fresh := false } start
    if sep.isNone && value.isNone then
      -- nothing may follow a last comma but the closing bracket
      if (isFirst && before.hasComma) || !rest.isEmpty then none
      else flowParts? isMapping indent isFirst place parts rest
    else if before.hasComma == isFirst then none
    else if (key.map Tree.isBlock).getD false || (value.map Tree.isBlock).getD false then none
    else if !isMapping && sep.isNone then
      let (node, stop) ← partNode? place value
      flowParts? isMapping indent false stop (.item node :: parts) rest
    else if !isMapping && partSpansLines key then none
    else
      let sep := sep.getD []
      let (keyNode, keyEnd) ← partNode? (emptyPlace place start) key
      let (valueLead, valueStart) ←
        lead? { inFlow := true, mark := some .valueMark, next := value, offset := keyEnd, indent,
                fresh := false } sep
      if isMapping && !isNewKey keyNode (parts.map FlowPart.toEntry) then none
      else
        match valueLead.mark with
        | some mark =>
          if !isMapping && !isShortEntry place mark sep then none
          else
            let (valueNode, stop) ← partNode? (emptyPlace valueStart sep) value
            flowParts? isMapping indent false stop (.entry keyNode (some valueNode) :: parts) rest
        | none =>
          if value.isSome then none
          else flowParts? isMapping indent false valueStart (.entry keyNode none :: parts) rest

end

/-- The node of a document. A block collection may not begin on the line of the document's marker. -/
def DocumentTree.node? (d : DocumentTree) : Option Node := do
  let (before, place) ←
    lead? { mark := some .documentStart, next := d.value, offset := 0, indent := 0, fresh := true } d.start
  if before.mark.isSome && !before.hasBreak && (d.value.map Tree.isBlock).getD false then none
  else
    let (node, stop) ← partNode? (emptyPlace place d.start) d.value
    let _ ← endOf? true stop d.after
    pure node

end WorkflowCompiler.Yaml
