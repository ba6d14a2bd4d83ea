import WorkflowCompiler.Proofs.Markup.Reading

/-!
Printing and reading trees. A printable tree that is not too deep prints, and the text reads
as the same tree with its texts trimmed and without declarations of namespaces, unless the
limit on replacements stands in the way (`parse_serialize`).
-/
namespace WorkflowCompiler.Markup
open Text

/-! ### Trees -/

mutual

/-- How many elements with content are nested. -/
def Element.depth : Element → Nat
  | ⟨_, _, text, children⟩ => if text = "" ∧ children.isEmpty then 0 else depthOf children + 1

def Element.depthOf : List Element → Nat
  | [] => 0
  | e :: rest => max (depth e) (depthOf rest)

end

mutual

/-- How many replacements it takes to read a printed tree. -/
def Element.references : Element → Nat
  | ⟨_, attributes, text, children⟩ =>
    attributeReferences attributes + (Markup.references text.toList + referencesOf children)

def Element.referencesOf : List Element → Nat
  | [] => 0
  | e :: rest => references e + referencesOf rest

end

mutual

/-- The tree that is read from a printed tree whose lines end with line feeds. -/
def Element.trimmed : Element → Element
  | ⟨name, attributes, text, children⟩ => ⟨name, readableAttributes attributes, trim text, trimmedOf children⟩

def Element.trimmedOf : List Element → List Element
  | [] => []
  | e :: rest => trimmed e :: trimmedOf rest

end

theorem Element.depth_of_filled {e : Element} (filled : e.isVoid = false) : e.depth = depthOf e.children + 1 := by
  obtain ⟨name, attributes, text, children⟩ := e
  rw [depth, if_neg (by simpa [isVoid] using filled)]

theorem Element.references_eq (e : Element) : e.references =
    attributeReferences e.attributes + (Markup.references e.text.toList + referencesOf e.children) := by
  obtain ⟨name, attributes, text, children⟩ := e
  rw [references]

/-- The tree of an element once its content has been read. -/
theorem Element.close_content (e : Element) :
    ({ name := e.name, attributes := readableAttributes e.attributes, text := trimChars e.text.toList
       children := (trimmedOf e.children).reverse } : OpenElement).close = e.trimmed := by
  have twice : trimChars (trimChars e.text.toList) = trimChars e.text.toList := trimmed_trimChars _
  obtain ⟨name, attributes, text, children⟩ := e
  simp [OpenElement.close, trimmed, trim, twice]

theorem Element.name_trimmed (e : Element) : e.trimmed.name = e.name := by
  obtain ⟨name, attributes, text, children⟩ := e
  rw [trimmed]

namespace Reading

/-- The state after an element. -/
def past (r : Reading) (text : List Char) (e : Element) : Reading :=
  { r.flushed text with ended := false, expansions := (r.flushed text).expansions.spend e.references }.addElement e.trimmed

theorem Holds.after {r : Reading} {text : List Char} (holds : r.Holds text) {lineStart : List Char} (indent : Indent lineStart) :
    (r.pend lineStart).Holds text where
  running := holds.running
  undeclared := holds.undeclared
  pending := by
    have blank : ∀ c ∈ lineStart, isBlank c = true := by
      intro c member
      rcases indent c member with rfl | rfl <;> decide
    rw [pend, List.reverse_append, List.reverse_reverse, trimChars_append_right blank, holds.pending]

theorem SimpleName.shows {name : String} (simple : SimpleName name) : ¬ (name = attributesName ∨ name = textName) := by
  rintro (rfl | rfl)
  · exact simple.head?_ne (d := ':') (by decide) (by decide : attributesName.toList.head? = _)
  · exact simple.head?_ne (d := '#') (by decide) (by decide : textName.toList.head? = _)

/-- An element within another one. -/
theorem past_of_open {r : Reading} {o : OpenElement} {outer : List OpenElement} (opened : r.open_ = o :: outer) (text : List Char)
    {e : Element} (simple : SimpleName e.name) :
    r.past text e = { r with
      open_ := { o with text := o.text ++ text, children := e.trimmed :: o.children } :: outer, ended := false, pending := []
      expansions := r.expansions.spend (references text + e.references) } := by
  have shows : ¬ (e.trimmed.name = attributesName ∨ e.trimmed.name = textName) := by
    rw [e.name_trimmed]
    exact SimpleName.shows simple
  obtain ⟨open_, roots, ended, pending, x⟩ := r
  cases opened
  simp only [past, flushed, addText, addElement, consElement, if_neg shows, Expansions.spend_spend]

end Reading

open Reading

theorem Indent.plain {lineStart : List Char} (indent : Indent lineStart) : '<' ∉ lineStart := by
  intro member
  rcases indent _ member with same | same <;> cases same

theorem Indent.unbroken {lineStart : List Char} (indent : Indent lineStart) : '\r' ∉ lineStart := by
  intro member
  rcases indent _ member with same | same <;> cases same

/-- The content of an element that is open, up to its end tag. -/
theorem reads_content {name : String} (simple : SimpleName name) {lineStart lastLine : List Char} (indent : Indent lineStart)
    (last : Indent lastLine) {es : List Element} (names : ∀ e ∈ es, SimpleName e.name) {room : Nat}
    (each : ∀ e ∈ es, ∀ {r : Reading} {text : List Char}, r.Ready text → r.open_.length = room →
      ∀ rest, Reads (references text + e.references) r (body lineStart e ++ rest) (r.past text e) rest)
    {r : Reading} {text : List Char} (holds : r.Holds text) {o : OpenElement} {outer : List OpenElement}
    (opened : r.open_ = o :: outer) (hears : o.name ≠ deafName) (deep : outer.length + 1 = room) (rest : List Char) :
    Reads (references text + Element.referencesOf es) r (bodies lineStart es ++ (lastLine ++ (endTag name ++ rest)))
      ({ r with
        open_ := outer, ended := false, pending := []
        expansions := r.expansions.spend (references text + Element.referencesOf es) }.addElement
        { o with text := o.text ++ text, children := (Element.trimmedOf es).reverse ++ o.children : OpenElement }.close) rest := by
  induction es generalizing r text o with
  | nil =>
    have shape : endTag name ++ rest = '<' :: '/' :: (name.toList ++ '>' :: rest) := by simp [endTag]
    have stop := Reads.markup (by simp; omega) (markup_end (holds.after last) simple rest)
    have closed : ((r.pend lastLine).flushed text).closeInnermost = { r with
        open_ := outer, ended := false, pending := [], expansions := r.expansions.spend (references text) }.addElement
          { o with text := o.text ++ text : OpenElement }.close := by
      have running := holds.running
      obtain ⟨open_, roots, ended, pending, x⟩ := r
      cases opened
      cases running
      rfl
    rw [closed] at stop
    rw [bodies, List.nil_append, shape]
    exact Reads.after last.plain stop
  | cons e es ih =>
    obtain ⟨named, names⟩ := List.forall_mem_cons.mp names
    obtain ⟨first, others⟩ := List.forall_mem_cons.mp each
    have opened' : (r.pend lineStart).open_ = o :: outer := opened
    have ready : (r.pend lineStart).Ready text := by
      refine ⟨holds.after indent, fun drops => absurd ?_ hears⟩
      simpa [dropsText, opened'] using drops
    have element := first ready (by rw [opened']; exact deep) (bodies lineStart es ++ (lastLine ++ (endTag name ++ rest)))
    rw [past_of_open opened' text named] at element
    have further : Holds { r.pend lineStart with
        open_ := { o with text := o.text ++ text, children := e.trimmed :: o.children } :: outer, ended := false, pending := []
        expansions := (r.pend lineStart).expansions.spend (references text + e.references) } [] :=
      ⟨rfl, holds.undeclared, rfl⟩
    have more := ih names others further rfl hears
    have reads := (Reads.after indent.plain element).trans rfl more
    have count : references text + Element.referencesOf (e :: es) =
        references text + e.references + (references [] + Element.referencesOf es) := by
      rw [Element.referencesOf, show references [] = 0 from rfl]
      omega
    rw [count, ← Expansions.spend_spend, bodies, Element.trimmedOf]
    simpa [Reading.pend] using reads

theorem depth_le_depthOf {es : List Element} : ∀ e ∈ es, e.depth ≤ Element.depthOf es := by
  induction es with
  | nil => exact List.forall_mem_nil _
  | cons e es ih =>
    refine List.forall_mem_cons.mpr ⟨Nat.le_max_left _ _, fun c member => (ih c member).trans (Nat.le_max_right _ _)⟩

theorem Reading.tagged_void (r : Reading) (text : List Char) {e : Element} (void : e.isVoid = true) :
    e.references = attributeReferences e.attributes ∧ r.tagged text e true = r.past text e := by
  obtain ⟨name, attributes, content, children⟩ := e
  simp only [Element.isVoid, Bool.and_eq_true, beq_iff_eq, List.isEmpty_iff] at void
  obtain ⟨rfl, rfl⟩ := void
  have count : Element.references ⟨name, attributes, "", []⟩ = attributeReferences attributes := rfl
  refine ⟨count, ?_⟩
  rw [past, count]
  rfl

theorem Reading.Ready.holds_text {r : Reading} {text : List Char} (ready : r.Ready text) (e : Element) :
    ((r.tagged text e false).pend (escape e.text.toList)).Holds (trimChars e.text.toList) := by
  refine ⟨rfl, ready.undeclared, ?_⟩
  show trimChars ((escape e.text.toList).reverse ++ []).reverse = _
  rw [List.append_nil, List.reverse_reverse, trimChars_escape]

/-- The reader gets past a printed element and has added its tree. -/
theorem reads_body {e : Element} (printable : e.Every Printable) {lineStart : List Char} (indent : Indent lineStart) {r : Reading}
    {text : List Char} (ready : r.Ready text) (room : r.open_.length + e.depth ≤ nestingLimit + 1) (rest : List Char) :
    Reads (references text + e.references) r (body lineStart e ++ rest) (r.past text e) rest := by
  induction printable generalizing lineStart r text rest with
  | @intro e here below ih =>
    rw [body_append]
    cases void : e.isVoid with
    | true =>
      obtain ⟨count, same⟩ := r.tagged_void text void
      rw [count, ← same]
      exact Reads.markup (by simp; omega) (markup_start ready here (by simp : true = false → _) rest)
    | false =>
      rw [if_neg Bool.false_ne_true]
      have deep := e.depth_of_filled void
      have start := Reads.markup (by simp; omega)
        (markup_start ready here (fun _ => by omega : false = false → _) (afterStartTag lineStart e rest))
      have hears : e.name ≠ deafName := by
        intro same
        exact here.name.head?_ne (d := '!') (by decide) (same ▸ by decide)
      have spent : (r.tagged text e false).expansions = r.expansions.spend (references text + attributeReferences e.attributes) := by
        rw [← Expansions.spend_spend]
        rfl
      have each : ∀ c ∈ e.children, ∀ {s : Reading} {held : List Char}, s.Ready held → s.open_.length = (r.flushed text).open_.length + 1 →
          ∀ rest, Reads (references held + c.references) s (body (lineStart ++ "  ".toList) c ++ rest) (s.past held c) rest := by
        intro c member s held ready same rest
        have := depth_le_depthOf c member
        rw [length_open_flushed] at same
        exact ih c member indent.deeper ready (by omega) rest
      have opened : ((r.tagged text e false).pend (escape e.text.toList)).open_ =
          { name := e.name, attributes := readableAttributes e.attributes } :: (r.flushed text).open_ := rfl
      have inner := reads_content here.name indent.deeper (indent.ifNonempty e.children) (fun c member => (below c member).here.name)
        each (ready.holds_text e) opened hears rfl rest
      have reads := start.trans spent (Reads.after (not_mem_escape (by decide) (by decide) _) inner)
      rw [references_trimChars, List.append_nil] at reads
      rw [past, e.references_eq, ← Expansions.spend_spend, ← Nat.add_assoc, ← e.close_content]
      exact reads

theorem readFrom_nil (fuel : Nat) (r : Reading) : readFrom fuel r [] = .ok r := by
  cases fuel <;> rw [readFrom]

theorem readElements_body {e : Element} (printable : e.Every Printable) (flat : e.depth ≤ nestingLimit + 1) {text : List Char}
    (lines : normalizeLines text = body ['\n'] e) (roots : List Element) :
    readElements text = .ok roots ↔ e.references ≤ expansionLimit ∧ roots = [e.trimmed] := by
  have ready : ({} : Reading).Ready [] := ⟨⟨rfl, rfl, rfl⟩, fun _ => ⟨rfl, rfl⟩⟩
  have room : ({} : Reading).open_.length + e.depth ≤ nestingLimit + 1 := by simpa using flat
  obtain ⟨fuel, _, reads⟩ := reads_body printable .line ready room [] ((body ['\n'] e).length + 1) (by simp)
  rw [List.append_nil] at reads
  have within : ({} : Reading).expansions.Within (references [] + e.references) ↔ e.references ≤ expansionLimit := by
    have zero : ({} : Reading).expansions.count = 0 := rfl
    rw [show references [] = 0 from rfl, Expansions.Within]
    omega
  have shows : ¬ (e.trimmed.name = attributesName ∨ e.trimmed.name = textName) := by
    rw [e.name_trimmed]
    exact SimpleName.shows printable.here.name
  have root : closeAll (({} : Reading).past [] e).open_ (({} : Reading).past [] e).roots = [e.trimmed] := by
    show closeAll [] (consElement e.trimmed []) = _
    rw [consElement, if_neg shows, closeAll]
  rw [readElements, lines, bind_eq_ok]
  constructor
  · rintro ⟨final, read, same⟩
    obtain ⟨room, last⟩ := (reads final).mp read
    rw [readFrom_nil] at last
    cases last
    cases same
    rw [root]
    exact ⟨within.mp room, rfl⟩
  · rintro ⟨room, rfl⟩
    refine ⟨_, (reads _).mpr ⟨within.mpr room, readFrom_nil _ _⟩, ?_⟩
    rw [root]
    rfl

/-! ### Ends of lines -/

mutual

/-- A tree whose lines end with line feeds. -/
def Element.normalized : Element → Element
  | ⟨name, attributes, text, children⟩ =>
    ⟨name, attributes.map fun a => (a.1, String.ofList (normalizeLines a.2.toList)), String.ofList (normalizeLines text.toList),
      normalizedOf children⟩

def Element.normalizedOf : List Element → List Element
  | [] => []
  | e :: rest => normalized e :: normalizedOf rest

end

theorem normalizeLines_eq_nil {cs : List Char} : normalizeLines cs = [] ↔ cs = [] := by
  constructor
  · intro empty
    fun_cases normalizeLines cs <;> simp_all [normalizeLines]
  · rintro rfl
    rfl

theorem isVoid_normalized (e : Element) : e.normalized.isVoid = e.isVoid := by
  obtain ⟨name, attributes, text, children⟩ := e
  have texts : (String.ofList (normalizeLines text.toList) == "") = (text == "") := by
    rw [Bool.eq_iff_iff, beq_iff_eq, beq_iff_eq, String.ofList_eq_empty_iff, normalizeLines_eq_nil, String.toList_eq_nil_iff]
  cases children <;> simp [Element.normalized, Element.normalizedOf, Element.isVoid, texts]

theorem normalizeLines_printAttributes {as : List (String × String)} (keys : ∀ a ∈ as, SimpleName a.1) (rest : List Char) :
    normalizeLines (printAttributes as ++ rest) =
      printAttributes (as.map fun a => (a.1, String.ofList (normalizeLines a.2.toList))) ++ normalizeLines rest := by
  induction as with
  | nil => rfl
  | cons a as ih =>
    obtain ⟨simple, simples⟩ := List.forall_mem_cons.mp keys
    have front : '\r' ∉ ' ' :: a.1.toList ++ ['=', '"'] := by simpa using simple.not_mem (d := '\r') (by decide)
    have shape (value more : List Char) :
        attributeText a.1.toList value ++ more = (' ' :: a.1.toList ++ ['=', '"']) ++ (value ++ '"' :: more) := by
      simp [attributeText]
    rw [List.map_cons, printAttributes_cons, printAttributes_cons, List.append_assoc, List.append_assoc, shape, shape,
      normalizeLines_append_of_not_mem front, normalizeLines_append _ (by simp), normalizeLines_cons (by decide), ih simples,
      normalizeLines_escape, String.toList_ofList]

theorem normalizeLines_bodies {lineStart : List Char} (indent : Indent lineStart) {es : List Element}
    (each : ∀ e ∈ es, ∀ rest, normalizeLines (body lineStart e ++ rest) = body lineStart e.normalized ++ normalizeLines rest)
    (rest : List Char) :
    normalizeLines (bodies lineStart es ++ rest) = bodies lineStart (Element.normalizedOf es) ++ normalizeLines rest := by
  induction es with
  | nil => rfl
  | cons e es ih =>
    obtain ⟨first, others⟩ := List.forall_mem_cons.mp each
    rw [bodies, Element.normalizedOf, bodies, List.append_assoc, List.append_assoc, normalizeLines_append_of_not_mem indent.unbroken,
      first, ih others]
    simp

theorem normalizeLines_startTag {name : String} (simple : SimpleName name) {as : List (String × String)}
    (keys : ∀ a ∈ as, SimpleName a.1) (closes : Bool) (more : List Char) :
    normalizeLines ('<' :: (name.toList ++ (printAttributes as ++ (slashIf closes ++ '>' :: more)))) =
      '<' :: (name.toList ++ (printAttributes (as.map fun a => (a.1, String.ofList (normalizeLines a.2.toList))) ++
        (slashIf closes ++ '>' :: normalizeLines more))) := by
  have opening : '\r' ∉ '<' :: name.toList := by simpa using simple.not_mem (d := '\r') (by decide)
  have closing : '\r' ∉ slashIf closes ++ ['>'] := by cases closes <;> decide
  rw [← List.cons_append, normalizeLines_append_of_not_mem opening, normalizeLines_printAttributes keys, List.append_cons _ '>' more,
    normalizeLines_append_of_not_mem closing, List.append_cons _ '>' (normalizeLines more), List.cons_append]

theorem afterStartTag_normalized (lineStart : List Char) (e : Element) (more : List Char) :
    afterStartTag lineStart e.normalized more = escape (normalizeLines e.text.toList) ++
      (bodies (lineStart ++ "  ".toList) (Element.normalizedOf e.children) ++
        ((if e.children.isEmpty then [] else lineStart) ++ (endTag e.name ++ more))) := by
  obtain ⟨name, attributes, text, children⟩ := e
  have normalized : (String.ofList (normalizeLines text.toList)).toList = normalizeLines text.toList := String.toList_ofList
  have empty : (Element.normalizedOf children).isEmpty = children.isEmpty := by cases children <;> rfl
  simp only [Element.normalized, afterStartTag, normalized, empty]

theorem normalizeLines_afterStartTag {e : Element} (here : Printable e) {lineStart : List Char} (indent : Indent lineStart)
    (each : ∀ c ∈ e.children, ∀ rest, normalizeLines (body (lineStart ++ "  ".toList) c ++ rest) =
      body (lineStart ++ "  ".toList) c.normalized ++ normalizeLines rest) (rest : List Char) :
    normalizeLines (afterStartTag lineStart e rest) = afterStartTag lineStart e.normalized (normalizeLines rest) := by
  have ends : '\r' ∉ endTag e.name := by simpa [endTag] using here.name.not_mem (d := '\r') (by decide)
  rw [afterStartTag_normalized, afterStartTag]
  by_cases leaf : e.children = []
  · have apart : (endTag e.name ++ rest).head? ≠ some '\n' := by simp [endTag]
    simp only [leaf, bodies, Element.normalizedOf, List.isEmpty_nil, if_true, List.nil_append]
    rw [normalizeLines_append _ apart, normalizeLines_append_of_not_mem ends, normalizeLines_escape]
  · have unbroken : '\r' ∉ e.text.toList := here.joined leaf
    have escaped : normalizeLines (escape e.text.toList) = escape e.text.toList := by
      rw [normalizeLines_escape, normalizeLines_of_not_mem unbroken]
    have plain : '\r' ∉ escape e.text.toList := escaped ▸ not_mem_normalizeLines _
    rw [normalizeLines_append_of_not_mem plain, normalizeLines_of_not_mem unbroken, normalizeLines_bodies indent.deeper each,
      if_neg (by simpa using leaf), normalizeLines_append_of_not_mem indent.unbroken, normalizeLines_append_of_not_mem ends]

theorem normalizeLines_body {e : Element} (printable : e.Every Printable) {lineStart : List Char} (indent : Indent lineStart)
    (rest : List Char) : normalizeLines (body lineStart e ++ rest) = body lineStart e.normalized ++ normalizeLines rest := by
  induction printable generalizing lineStart rest with
  | @intro e here below ih =>
    have tag : e.normalized.name = e.name ∧
        e.normalized.attributes = e.attributes.map fun a => (a.1, String.ofList (normalizeLines a.2.toList)) := by
      obtain ⟨_, _, _, _⟩ := e
      exact ⟨rfl, rfl⟩
    rw [body_append, body_append, normalizeLines_startTag here.name here.keys, isVoid_normalized, tag.1, tag.2]
    cases e.isVoid with
    | true => rfl
    | false =>
      rw [if_neg Bool.false_ne_true, if_neg Bool.false_ne_true,
        normalizeLines_afterStartTag here indent fun c member => ih c member indent.deeper]

theorem Element.normalizedOf_eq_map (es : List Element) : normalizedOf es = es.map normalized := by
  induction es with
  | nil => rfl
  | cons e es ih => rw [normalizedOf, ih, List.map_cons]

theorem Element.every_normalized {e : Element} (printable : e.Every Printable) : e.normalized.Every Printable := by
  induction printable with
  | @intro e here below ih =>
    obtain ⟨name, attributes, text, children⟩ := e
    have keys : (attributes.map fun a => (a.1, String.ofList (normalizeLines a.2.toList))).map Prod.fst = attributes.map Prod.fst := by
      rw [List.map_map]
      rfl
    refine .intro ⟨here.name, ?_, ?_, ?_, ?_⟩ ?_
    · intro a member
      obtain ⟨b, within, rfl⟩ := List.mem_map.mp member
      exact here.keys b within
    · intro a member
      obtain ⟨b, within, rfl⟩ := List.mem_map.mp member
      exact here.kept b within
    · show ((attributes.map fun a => (a.1, String.ofList (normalizeLines a.2.toList))).map Prod.fst).Nodup
      rw [keys]
      exact here.distinct
    · intro _
      show '\r' ∉ (String.ofList (normalizeLines text.toList)).toList
      rw [String.toList_ofList]
      exact not_mem_normalizeLines _
    · intro c member
      obtain ⟨d, within, rfl⟩ := List.mem_map.mp ((normalizedOf_eq_map children) ▸ member : c ∈ children.map normalized)
      exact ih d within

theorem count_normalizeLines {c : Char} (notReturn : c ≠ '\r') (notFeed : c ≠ '\n') (cs : List Char) :
    (normalizeLines cs).count c = cs.count c := by
  fun_induction normalizeLines cs with
  | case1 rest ih => simp [ih, Ne.symm notReturn, Ne.symm notFeed]
  | case2 rest _ ih => simp [ih, Ne.symm notReturn, Ne.symm notFeed]
  | case3 c rest _ _ ih => simp [List.count_cons, ih]
  | case4 => rfl

theorem references_normalizeLines (cs : List Char) : references (normalizeLines cs) = references cs := by
  simp [references, characterReferences, count_normalizeLines]

theorem attributeReferences_normalized (as : List (String × String)) :
    attributeReferences (as.map fun a => (a.1, String.ofList (normalizeLines a.2.toList))) = attributeReferences as := by
  rw [attributeReferences, attributeReferences, List.filter_map, List.map_map]
  simp [Function.comp_def, references_normalizeLines]

mutual

theorem depth_normalized : (e : Element) → e.normalized.depth = e.depth
  | ⟨name, attributes, text, children⟩ => by
    have void := isVoid_normalized ⟨name, attributes, text, children⟩
    rw [Element.normalized, Element.isVoid, Element.isVoid, Bool.eq_iff_iff, Bool.and_eq_true, Bool.and_eq_true, beq_iff_eq,
      beq_iff_eq] at void
    rw [Element.normalized, Element.depth, Element.depth, depthOf_normalizedOf children]
    simp only [void]

theorem depthOf_normalizedOf : (es : List Element) → Element.depthOf (Element.normalizedOf es) = Element.depthOf es
  | [] => rfl
  | e :: rest => by rw [Element.normalizedOf, Element.depthOf, Element.depthOf, depth_normalized e, depthOf_normalizedOf rest]

end

mutual

theorem references_normalized : (e : Element) → e.normalized.references = e.references
  | ⟨name, attributes, text, children⟩ => by
    rw [Element.normalized, Element.references, Element.references, attributeReferences_normalized, String.toList_ofList,
      references_normalizeLines, referencesOf_normalizedOf children]

theorem referencesOf_normalizedOf : (es : List Element) → Element.referencesOf (Element.normalizedOf es) = Element.referencesOf es
  | [] => rfl
  | e :: rest => by
    rw [Element.normalizedOf, Element.referencesOf, Element.referencesOf, references_normalized e, referencesOf_normalizedOf rest]

end

/-- How a printed tree reads: trimmed, with line feeds only, and without declarations of namespaces. -/
def Element.reread (e : Element) : Element := e.normalized.trimmed

theorem trimmedOf_normalizedOf (es : List Element) : Element.trimmedOf (Element.normalizedOf es) = es.map Element.reread := by
  induction es with
  | nil => rw [Element.normalizedOf, Element.trimmedOf, List.map_nil]
  | cons e rest ih => rw [Element.normalizedOf, Element.trimmedOf, ih, List.map_cons, Element.reread]

theorem Element.reread_eq (e : Element) : e.reread =
    ⟨e.name, readableAttributes (e.attributes.map fun a => (a.1, String.ofList (normalizeLines a.2.toList))),
      trim (String.ofList (normalizeLines e.text.toList)), e.children.map reread⟩ := by
  obtain ⟨name, attributes, text, children⟩ := e
  rw [reread, normalized, trimmed, trimmedOf_normalizedOf]

theorem Element.child?_reread (e : Element) (name : String) : e.reread.child? name = (e.child? name).map reread := by
  rw [child?, child?, e.reread_eq, List.find?_map]
  congr 2
  funext c
  rw [Function.comp, c.reread_eq]

/-- Texts that reading leaves as they are. -/
def CleanText (s : String) : Prop := Trimmed s.toList ∧ '\r' ∉ s.toList

instance (s : String) : Decidable (CleanText s) := inferInstanceAs (Decidable (_ ∧ _))

theorem CleanText.trim_normalizeLines {s : String} (clean : CleanText s) : trim (String.ofList (normalizeLines s.toList)) = s := by
  rw [normalizeLines_of_not_mem clean.2, String.ofList_toList, trim, clean.1, String.ofList_toList]

/-- Elements that read exactly as they were printed. -/
structure Faithful (e : Element) : Prop where
  text : CleanText e.text
  attributes : ∀ a ∈ e.attributes, a.1 ≠ namespaceKey ∧ CleanText a.2

instance (e : Element) : Decidable (Faithful e) :=
  decidable_of_iff (CleanText e.text ∧ ∀ a ∈ e.attributes, a.1 ≠ namespaceKey ∧ CleanText a.2)
    ⟨fun both => ⟨both.1, both.2⟩, fun faithful => ⟨faithful.text, faithful.attributes⟩⟩

theorem Element.reread_of_faithful {e : Element} (faithful : e.Every Faithful) : e.reread = e := by
  induction faithful with
  | @intro e here below ih =>
    have attributes : readableAttributes (e.attributes.map fun a => (a.1, String.ofList (normalizeLines a.2.toList))) = e.attributes := by
      rw [readableAttributes, List.filter_eq_self.mpr, List.map_map]
      · have same : ∀ a ∈ e.attributes, ((fun a => (a.1, trim a.2)) ∘ fun a => (a.1, String.ofList (normalizeLines a.2.toList))) a = id a := by
          intro a member
          simp only [Function.comp, (here.attributes a member).2.trim_normalizeLines, id]
        rw [List.map_congr_left same, List.map_id]
      · intro a member
        obtain ⟨b, inside, rfl⟩ := List.mem_map.mp member
        simpa using (here.attributes b inside).1
    rw [e.reread_eq, attributes, here.text.trim_normalizeLines, List.map_congr_left ih, List.map_id']
    cases e
    rfl

/-- A printable tree that is not too deep prints, and the text reads back exactly if there are not too
    many references in it. -/
theorem parse_serialize {e : Element} (printable : e.Every Printable) (flat : e.depth ≤ nestingLimit + 1) :
    ∃ text, serialize e = .ok text ∧
      ∀ tree, parse text = .ok tree ↔ e.references ≤ expansionLimit ∧ tree = e.reread := by
  have simple : e.Every fun e => SimpleName e.name := printable.imp fun _ here => here.name
  refine ⟨_, serialize_eq simple, fun tree => ?_⟩
  have lines := normalizeLines_body printable .line []
  rw [List.append_nil, show normalizeLines [] = [] from rfl, List.append_nil] at lines
  have read := readElements_body (Element.every_normalized printable) (by rw [depth_normalized]; exact flat) lines
  rw [references_normalized] at read
  rw [parse, String.toList_ofList, checkFault?_body printable]
  constructor
  · intro parsed
    cases elements : readElements (body ['\n'] e) with
    | error fault =>
      rw [elements] at parsed
      cases parsed
    | ok roots =>
      obtain ⟨room, rfl⟩ := (read roots).mp elements
      rw [elements] at parsed
      cases parsed
      exact ⟨room, rfl⟩
  · rintro ⟨room, rfl⟩
    rw [(read _).mpr ⟨room, rfl⟩]
    rfl

/-- A tree that reading leaves as it is comes back from its text. -/
theorem parse_of_serialize {e : Element} (printable : e.Every Printable) (faithful : e.Every Faithful)
    (flat : e.depth ≤ nestingLimit + 1) (few : e.references ≤ expansionLimit) {text : String} (written : serialize e = .ok text) :
    parse text = .ok e := by
  obtain ⟨printed, same, reads⟩ := parse_serialize printable flat
  rw [written] at same
  cases same
  exact (reads e).mpr ⟨few, (Element.reread_of_faithful faithful).symm⟩

/-- A tree that reading leaves as it is has a text. -/
theorem exists_text {e : Element} (printable : e.Every Printable) (faithful : e.Every Faithful)
    (flat : e.depth ≤ nestingLimit + 1) (few : e.references ≤ expansionLimit) :
    ∃ text, serialize e = .ok text ∧ parse text = .ok e := by
  obtain ⟨text, written, _⟩ := parse_serialize printable flat
  exact ⟨text, written, parse_of_serialize printable faithful flat few written⟩

end WorkflowCompiler.Markup
