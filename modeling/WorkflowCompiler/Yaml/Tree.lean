import WorkflowCompiler.Yaml.Token

/-!
# Nesting

Tokens are nested into trees: a scalar, a flow collection with its items, or a
block collection whose items are told apart by their indents. Nothing is checked
here but that every token has a place: white space, comments and marks are kept
with the items they stand in, and decide later whether a tree is sound.
-/
namespace WorkflowCompiler.Yaml

/-- An item of a collection, as far as it has been read. An item of a list has only a value; in a flow
    collection it is a key until it is known to be none. -/
structure Item (τ : Type) where
  /-- What stands before the key. -/
  start : List Token := []
  key : Option τ := none
  /-- What stands between the key and the value, if the key has been read. -/
  sep : Option (List Token) := none
  value : Option τ := none
deriving Repr

/-- A piece of a document. -/
inductive Tree
  /-- A scalar, and what stands after it on its line. -/
  | scalar (token : Token) (after : Option (List Token))
  /-- A flow collection. The closing bracket is the first of the tokens after it. -/
  | flow (opening : Token) (indent : Nat) (items : List (Item Tree)) (after : List Token)
  | block (isMapping : Bool) (offset indent : Nat) (items : List (Item Tree))
deriving Repr

/-- A document: what stands before, in and after its value. -/
structure DocumentTree where
  start : List Token := []
  value : Option Tree := none
  after : List Token := []
deriving Repr

def Token.isOf (kind : TokenKind) (t : Token) : Bool := t.kind == kind

/-- Whether a token is white space or a comment. -/
def Token.isVoid (t : Token) : Bool :=
  t.kind == .space || t.kind == .newline || t.kind == .comment

namespace Tree

def indent : Tree → Nat
  | .scalar t _ => t.indent
  | .flow _ indent _ _ => indent
  | .block _ _ indent _ => indent

/-- What stands after a tree on its line, if that is kept with it. -/
def after? : Tree → Option (List Token)
  | .scalar _ after => after
  | .flow _ _ _ after => some after
  | .block .. => none

/-- Puts tokens after a tree; they are lost after a block collection, which keeps none. -/
def addAfter (more : List Token) : Tree → Tree
  | .scalar t after => .scalar t (some (after.getD [] ++ more))
  | .flow t indent items after => .flow t indent items (after ++ more)
  | .block isMapping offset indent items => .block isMapping offset indent items

def isBlock : Tree → Bool
  | .block .. => true
  | _ => false

def isSequence : Tree → Bool
  | .block isMapping .. => !isMapping
  | _ => false

def isBlockMapping : Tree → Bool
  | .block isMapping .. => isMapping
  | _ => false

end Tree

/-! ## What is open -/

/-- Something that is open while tokens are nested; items have the last one first. -/
inductive Frame
  | document (d : DocumentTree)
  | scalar (token : Token) (after : Option (List Token))
  | flow (opening : Token) (indent : Nat) (items : List (Item Tree)) (after : List Token)
  | block (isMapping : Bool) (offset indent : Nat) (items : List (Item Tree))
  /-- The end of a document, and what follows its marker. -/
  | ended (after : List Token)

structure Nesting where
  /-- What is open, innermost first. -/
  stack : List Frame := []
  onKeyLine : Bool := false
  /-- The documents that have been read, the last one first. -/
  documents : List DocumentTree := []
  /-- What follows the markers that end documents. -/
  endings : List (List Token) := []

/-- A key of a flow list that no colon follows is a value. -/
def Item.asListItem (it : Item Tree) : Item Tree :=
  match it.sep, it.value with
  | some sep, none =>
    if sep.any (·.isOf .valueMark) then it
    else
      match it.key with
      | none => { it with sep := none, start := it.start ++ sep }
      | some key =>
        if key.isBlock then { start := it.start ++ sep, value := some key }
        else { start := it.start, value := some (key.addAfter sep) }
  | _, _ => it

/-- A flow collection whose items have been read. -/
def closedFlow (opening : Token) (indent : Nat) (items : List (Item Tree)) (after : List Token) : Tree :=
  .flow opening indent
    (if opening.kind = .openList then items.reverse.map Item.asListItem else items.reverse) after

/-- The last item of a block collection that holds nothing but white space and comments that are not
    indented deeper belongs to what the collection stands in. -/
def splitTrailing : Tree → Tree × Option (List Token)
  | .block isMapping offset indent items =>
    match items.reverse with
    | last :: before =>
      if last.sep.isNone && last.value.isNone && !last.start.isEmpty && last.start.all Token.isVoid &&
          (indent == 0 || last.start.all fun t => !(t.isOf .comment) || t.indent < indent) then
        (.block isMapping offset indent before.reverse, some last.start)
      else (.block isMapping offset indent items, none)
    | [] => (.block isMapping offset indent items, none)
  | t => (t, none)

/-- Puts a tree that has been read into what it stands in, and says whether its line now has a key.
    Nothing can be put into a scalar or an ended document. -/
def Frame.attach (t : Tree) (onKeyLine : Bool) : Frame → Option (Frame × Bool)
  | .document d =>
    let (t, trailing) := splitTrailing t
    some (.document { d with value := some t, after := trailing.getD d.after }, onKeyLine)
  | .block true offset indent [] =>
    some (.block true offset indent [{ key := some t, sep := some [] }], true)
  | .block true offset indent (it :: before) =>
    if it.value.isSome then
      some (.block true offset indent ({ key := some t, sep := some [] } :: it :: before), true)
    else if it.sep.isSome then
      let (t, trailing) := splitTrailing t
      let items := { it with value := some t } :: before
      some (.block true offset indent ((trailing.map fun start => { start }).toList ++ items), onKeyLine)
    else some (.block true offset indent ({ it with key := some t, sep := some [] } :: before), true)
  | .block false offset indent items =>
    let (t, trailing) := splitTrailing t
    let items := match items with
      | [] => [{ value := some t }]
      | it :: before =>
        if it.value.isSome then { value := some t } :: it :: before
        else { it with value := some t } :: before
    some (.block false offset indent ((trailing.map fun start => { start }).toList ++ items), onKeyLine)
  | .flow opening indent items after =>
    let items := match items with
      | [] => [{ key := some t, sep := some [] }]
      | it :: before =>
        if it.value.isSome then { key := some t, sep := some [] } :: it :: before
        else if it.sep.isSome then { it with value := some t } :: before
        else { it with key := some t, sep := some [] } :: before
    some (.flow opening indent items after, onKeyLine)
  | .scalar .. => none
  | .ended _ => none

/-- What an open frame has become, given what it stands in. Brackets at the top have no indent. -/
def Frame.tree? (parent : Frame) : Frame → Option Tree
  | .scalar t after => some (.scalar t after)
  | .flow opening indent items after =>
    some (closedFlow opening (match parent with | .document _ => 0 | _ => indent) items after)
  | .block isMapping offset indent items => some (.block isMapping offset indent items.reverse)
  | .document _ => none
  | .ended _ => none

namespace Nesting

/-- Closes what is innermost. The end of a document needs a document before it. -/
def pop (n : Nesting) : Option Nesting :=
  match n.stack with
  | [] => none
  | [.document d] => some { n with stack := [], documents := d :: n.documents }
  | [.ended after] =>
    if n.documents.isEmpty then none else some { n with stack := [], endings := after :: n.endings }
  | [_] => none
  | top :: parent :: outer => do
    let (parent, onKeyLine) ← parent.attach (← Frame.tree? parent top) n.onKeyLine
    some { n with stack := parent :: outer, onKeyLine }

/-- Closes everything that is open. -/
def popAll (n : Nesting) : Option Nesting := go n.stack.length n
where
  /-- Closes the given number of frames. -/
  go : Nat → Nesting → Option Nesting
    | 0, n => some n
    | count + 1, n => n.pop.bind (go count)

/-- Opens something. -/
def push (n : Nesting) (f : Frame) : Nesting := { n with stack := f :: n.stack }

/-- Puts something in the place of what is innermost. -/
def setTop (n : Nesting) (f : Frame) : Nesting := { n with stack := f :: n.stack.tail }

end Nesting

/-! ## Tokens -/

def Token.isScalar (t : Token) : Bool :=
  t.kind == .plain || t.kind == .singleQuoted || t.kind == .doubleQuoted

/-- A mapping that begins with an entry whose key and separator are given. -/
def mappingFrame (offset indent : Nat) (key : Option Tree) (sep : List Token) : Frame :=
  .block true offset indent [{ key, sep := some sep }]

/-- What a token opens where a value can stand. -/
def openedBy? (t : Token) : Option Frame :=
  match t.kind with
  | .plain | .singleQuoted | .doubleQuoted => some (.scalar t none)
  | .openList | .openMapping => some (.flow t t.indent [] [])
  | .itemMark => some (.block false t.offset t.indent [{ start := [t] }])
  | .valueMark => some (mappingFrame t.offset t.indent none [t])
  | _ => none

/-- What the next token does to what is open. -/
inductive Reaction
  /-- The token is used up. -/
  | done (n : Nesting)
  /-- What is innermost is closed, and the token goes to what it stands in. -/
  | close
  /-- The token has no place. -/
  | refuse

def Nesting.openValue (n : Nesting) (t : Token) : Option Nesting :=
  (openedBy? t).map fun f => { n.push f with onKeyLine := n.onKeyLine || t.kind == .valueMark }

/-- Outside of documents only white space, comments and the beginning of a document can stand. -/
def atTop (n : Nesting) (t : Token) : Reaction :=
  match t.kind with
  | .byteOrderMark | .space | .comment | .newline => .done n
  | .contentStart => .done (n.push (.document {}))
  | .documentStart => .done (n.push (.document { start := [t] }))
  | _ => .refuse

/-- Whether a token closes a value at the end of its line and is then looked at again. -/
def closesValue (t : Token) : Bool :=
  match t.kind with
  | .comma | .documentStart | .documentEnd | .closeList | .closeMapping | .valueMark => true
  | _ => false

/-- What follows a document's value. -/
def afterDocument (n : Nesting) (d : DocumentTree) (t : Token) : Reaction :=
  if closesValue t then .close
  else
    let n := n.setTop (.document { d with after := d.after ++ [t] })
    if t.kind = .newline then
      match { n with onKeyLine := false }.pop with
      | some n => .done n
      | none => .refuse
    else .done n

def inDocument (n : Nesting) (d : DocumentTree) (t : Token) : Reaction :=
  if d.value.isSome then afterDocument n d t
  else
    match t.kind with
    | .documentStart =>
      if d.start.all Token.isVoid then .done (n.setTop (.document { d with start := d.start ++ [t] }))
      else .close
    | .space | .comment | .newline =>
      .done (n.setTop (.document { d with start := d.start ++ [t] }))
    | _ =>
      match n.openValue t with
      | some n => .done n
      | none => .refuse

def closeLine (n : Nesting) (t : Token) : Reaction :=
  if t.kind = .newline then
    match { n with onKeyLine := false }.pop with
    | some n => .done n
    | none => .refuse
  else .done n

/-- A token after a scalar. A colon makes it the first key of a mapping. -/
def afterScalar (n : Nesting) (scalar : Token) (after : Option (List Token)) (t : Token) : Reaction :=
  if t.kind = .valueMark then
    let map := mappingFrame scalar.offset scalar.indent (some (.scalar scalar none)) (after.getD [] ++ [t])
    .done { n.setTop map with onKeyLine := true }
  else if closesValue t then .close
  else closeLine (n.setTop (.scalar scalar (some (after.getD [] ++ [t])))) t

/-- White space or a comment in a block collection. A comment that is indented deeper than the
    collection, with only white space between, belongs to the value before it. -/
def addVoid (indent : Nat) (items : List (Item Tree)) (t : Token) : List (Item Tree) :=
  match items with
  | [] => [{ start := [t] }]
  | it :: before =>
    match it.value with
    | some v =>
      match t.kind, v.after?.bind List.getLast? with
      | .newline, some last =>
        if last.kind = .comment then { it with value := some (v.addAfter [t]) } :: before
        else { start := [t] } :: items
      | _, _ => { start := [t] } :: items
    | none =>
      match it.sep with
      | some sep => { it with sep := some (sep ++ [t]) } :: before
      | none =>
        let deeper := t.kind == .comment && indent < t.indent &&
          it.start.all fun s => s.isOf .newline || s.isOf .space
        match before with
        | previous :: others =>
          match deeper, previous.value with
          | true, some v =>
            if v.after?.isSome then
              { previous with value := some (v.addAfter (it.start ++ [t])) } :: others
            else { it with start := it.start ++ [t] } :: before
          | _, _ => { it with start := it.start ++ [t] } :: before
        | [] => [{ it with start := it.start ++ [t] }]

/-- The places of line breaks that nothing but white space follows, and comments that are not
    indented deeper than the given indent. -/
def openBreaks (indent : Nat) (sep : List Token) : List Nat :=
  (sep.zipIdx.foldl (fun found e =>
    match e.1.kind with
    | .newline => found ++ [e.2]
    | .space => found
    | .comment => if indent < e.1.indent then [] else found
    | _ => []) [])

/-- Where an entry without a value is followed by another one, what stands after its second line break
    belongs to the latter. -/
def splitSeparator (indent : Nat) (sep : List Token) : List Token × List Token :=
  match (openBreaks indent sep)[1]? with
  | some i => sep.splitAt i
  | none => (sep, [])

def colonInMapping (n : Nesting) (offset indent : Nat) (it : Item Tree) (before : List (Item Tree))
    (next : Bool) (start : List Token) (t : Token) : Nesting :=
  let n := { n with onKeyLine := true }
  let set := fun items => n.setTop (.block true offset indent items)
  match it.sep with
  | none => set ({ it with key := none, sep := some [t] } :: before)
  | some sep =>
    if it.value.isSome || next then set ({ start, sep := some [t] } :: it :: before)
    else if sep.any (·.isOf .valueMark) then
      (set (it :: before)).push (mappingFrame t.offset t.indent none [t])
    else set ({ it with sep := some (sep ++ [t]) } :: before)

def scalarInMapping (n : Nesting) (offset indent : Nat) (it : Item Tree) (before : List (Item Tree))
    (next : Bool) (start : List Token) (t : Token) : Nesting :=
  let set := fun items => n.setTop (.block true offset indent items)
  if next || it.value.isSome then
    { set ({ start, key := some (.scalar t none), sep := some [] } :: it :: before) with onKeyLine := true }
  else if it.sep.isSome then (set (it :: before)).push (.scalar t none)
  else
    { set ({ it with key := some (.scalar t none), sep := some [] } :: before) with onKeyLine := true }

/-- Something else that opens a value in a block mapping. A sequence may not begin on the line of its
    key. -/
def valueInMapping (n : Nesting) (offset indent : Nat) (it : Item Tree) (before : List (Item Tree))
    (atIndent : Bool) (start : List Token) (t : Token) : Reaction :=
  let set := fun items => n.setTop (.block true offset indent items)
  if t.kind = .itemMark then
    match it.sep with
    | some sep =>
      if sep.any (·.isOf .newline) then
        match (set (it :: before)).openValue t with
        | some n => .done n
        | none => .refuse
      else .refuse
    | none =>
      match (set (it :: before)).openValue t with
      | some n => .done n
      | none => .refuse
  else
    let items := if atIndent then { start } :: it :: before else it :: before
    match (set items).openValue t with
    | some n => .done n
    | none => .close

def inMapping (n : Nesting) (offset indent : Nat) (items : List (Item Tree)) (t : Token) : Reaction :=
  if t.isVoid then
    .done { n.setTop (.block true offset indent (addVoid indent items t)) with
      onKeyLine := n.onKeyLine && t.kind != .newline }
  else if t.indent < indent then .close
  else
    match items with
    | [] => .close
    | it :: before =>
      let atIndent := !n.onKeyLine && t.indent == indent
      let next := atIndent && it.sep.isSome && t.kind != .itemMark
      let (it, start) := match next, it.sep, it.value with
        | true, some sep, none =>
          let (sep, start) := splitSeparator indent sep
          ({ it with sep := some sep }, start)
        | _, _, _ => (it, [])
      if t.kind = .valueMark then .done (colonInMapping n offset indent it before next start t)
      else if t.isScalar then .done (scalarInMapping n offset indent it before next start t)
      else valueInMapping n offset indent it before atIndent start t

def inSequence (n : Nesting) (offset indent : Nat) (items : List (Item Tree)) (t : Token) : Reaction :=
  let set := fun items => n.setTop (.block false offset indent items)
  if t.isVoid then .done (set (addVoid indent items t))
  else if t.kind = .itemMark ∧ t.indent = indent then
    match items with
    | it :: before =>
      if it.value.isSome || it.start.any (·.isOf .itemMark) then .done (set ({ start := [t] } :: items))
      else .done (set ({ it with start := it.start ++ [t] } :: before))
    | [] => .done (set [{ start := [t] }])
  else if indent < t.indent then
    match n.openValue t with
    | some n => .done n
    | none => .close
  else .close

/-- Puts white space, a comma or a colon into a flow collection. -/
def addToFlow (items : List (Item Tree)) (t : Token) : List (Item Tree) :=
  match items with
  | [] => if t.kind = .valueMark then [{ sep := some [t] }] else [{ start := [t] }]
  | it :: before =>
    match t.kind with
    | .comma =>
      if it.sep.isSome then { start := [t] } :: items
      else { it with start := it.start ++ [t] } :: before
    | .valueMark =>
      if it.value.isSome then { sep := some [t] } :: items
      else { it with key := if it.sep.isSome then it.key else none,
                     sep := some (it.sep.getD [] ++ [t]) } :: before
    | _ =>
      if it.value.isSome then { start := [t] } :: items
      else
        match it.sep with
        | some sep => { it with sep := some (sep ++ [t]) } :: before
        | none => { it with start := it.start ++ [t] } :: before

/-- A token in a flow collection that is not closed. -/
def inFlowItems (n : Nesting) (opening : Token) (indent : Nat) (items : List (Item Tree)) (t : Token) :
    Reaction :=
  let set := fun items => n.setTop (.flow opening indent items [])
  match t.kind with
  | .comma | .valueMark | .space | .comment | .newline => .done (set (addToFlow items t))
  | .plain | .singleQuoted | .doubleQuoted =>
    let key : Item Tree := { key := some (.scalar t none), sep := some [] }
    match items with
    | [] => .done (set [key])
    | it :: before =>
      if it.value.isSome then .done (set (key :: items))
      else if it.sep.isSome then .done (n.push (.scalar t none))
      else .done (set ({ it with key := key.key, sep := key.sep } :: before))
  | .closeList | .closeMapping => .done (n.setTop (.flow opening indent items [t]))
  | .openList | .openMapping | .itemMark =>
    match n.openValue t with
    | some n => .done n
    | none => .refuse
  | _ => .close

/-- Whether a closed flow collection in a block mapping is a key, or a value before an entry without
    a key. -/
def closesInMapping (parent : Frame) (indent : Nat) (t : Token) : Bool :=
  match parent with
  | .block true _ parentIndent items =>
    t.kind == .valueMark && parentIndent == indent ||
      t.kind == .newline && ((items.head?.bind Item.sep).isNone)
  | _ => false

def afterFlow (n : Nesting) (parent : Frame) (opening : Token) (indent : Nat) (items : List (Item Tree))
    (after : List Token) (t : Token) : Reaction :=
  let inBrackets := match parent with
    | .flow .. => true
    | _ => false
  if closesInMapping parent indent t then .close
  else if t.kind = .valueMark ∧ !inBrackets then
    let key := closedFlow opening indent items (after.take 1)
    let map := mappingFrame opening.offset indent (some key) (after.drop 1 ++ [t])
    .done { n.setTop map with onKeyLine := true }
  else if closesValue t then .close
  else closeLine (n.setTop (.flow opening indent items (after ++ [t]))) t

/-- What the next token does to what is innermost. -/
def reaction (n : Nesting) (t : Token) : Reaction :=
  match n.stack with
  | [] => atTop n t
  | .document d :: _ => inDocument n d t
  | .scalar scalar after :: _ => afterScalar n scalar after t
  | .block true offset indent items :: _ => inMapping n offset indent items t
  | .block false offset indent items :: _ => inSequence n offset indent items t
  | .flow opening indent items [] :: _ => inFlowItems n opening indent items t
  | .flow opening indent items after :: parent :: _ => afterFlow n parent opening indent items after t
  | .flow .. :: [] => .refuse
  | .ended after :: _ =>
    if t.kind = .contentStart then .done n
    else
      let n := n.setTop (.ended (after ++ [t]))
      if t.kind = .newline then
        match n.pop with
        | some n => .done n
        | none => .refuse
      else .done n

namespace Nesting

/-- Whether what is innermost is the end of a document. -/
def isEnded (n : Nesting) : Bool :=
  match n.stack with
  | .ended _ :: _ => true
  | _ => false

/-- Gives a token to what is open, closing at most `fuel` frames for it. -/
def give : Nat → Nesting → Token → Option Nesting
  | 0, _, _ => none
  | fuel + 1, n, t =>
    if t.kind = .documentEnd ∧ !n.isEnded then n.popAll.map fun n => n.push (.ended [])
    else
      match reaction n t with
      | .done n => some n
      | .refuse => none
      | .close => n.pop.bind fun n => give fuel n t

/-- Gives tokens to what is open, one after the other. -/
def giveAll (n : Nesting) : List Token → Option Nesting
  | [] => some n
  | t :: rest => (give (n.stack.length + 1) n t).bind fun n => giveAll n rest

end Nesting

/-- The documents that tokens make up, and what follows the markers that end documents. -/
def documents? (tokens : List Token) : Option (List DocumentTree × List (List Token)) := do
  let n ← (← Nesting.giveAll {} tokens).popAll
  some (n.documents.reverse, n.endings)

end WorkflowCompiler.Yaml
