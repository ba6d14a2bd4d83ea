import WorkflowCompiler.Proofs.Markup.Trees

/-!
Which trees come back from their text. A tree with simple names and clean texts always prints. Its text
reads as the tree itself exactly if the reader has room for all of it: no attribute has a key that markup
keeps for itself, the tree is not nested too deep, and its texts do not take too many replacements
(`parse_serialize_self_iff`). None of the three can be left out (`lost_trees`).
-/
namespace WorkflowCompiler.Markup

/-- An element with simple names and different keys, whose texts reading leaves as they are. -/
structure CleanElement (e : Element) : Prop where
  name : SimpleName e.name
  keys : ∀ a ∈ e.attributes, SimpleName a.1
  distinct : (e.attributes.map Prod.fst).Nodup
  text : CleanText e.text
  values : ∀ a ∈ e.attributes, CleanText a.2

instance (e : Element) : Decidable (CleanElement e) :=
  decidable_of_iff (SimpleName e.name ∧ (∀ a ∈ e.attributes, SimpleName a.1) ∧ (e.attributes.map Prod.fst).Nodup ∧
      CleanText e.text ∧ ∀ a ∈ e.attributes, CleanText a.2)
    ⟨fun ⟨name, keys, distinct, text, values⟩ => ⟨name, keys, distinct, text, values⟩,
      fun clean => ⟨clean.name, clean.keys, clean.distinct, clean.text, clean.values⟩⟩

/-- An element without attributes that reading drops, refuses or renames. -/
def KeepsKeys (e : Element) : Prop :=
  ∀ a ∈ e.attributes, a.1 ≠ namespaceKey ∧ a.1 ∉ reservedAttributes ∧ a.1 ∉ guardedAttributes

instance (e : Element) : Decidable (KeepsKeys e) := inferInstanceAs (Decidable (∀ a ∈ e.attributes, _))

variable {e : Element}

theorem CleanElement.printable (clean : CleanElement e) (kept : ∀ a ∈ e.attributes, a.1 ∉ reservedAttributes ∧ a.1 ∉ guardedAttributes) :
    Printable e where
  name := clean.name
  keys := clean.keys
  kept := kept
  distinct := clean.distinct
  joined _ := clean.text.2

theorem CleanElement.faithful (clean : CleanElement e) (keeps : KeepsKeys e) : Faithful e where
  text := clean.text
  attributes a member := ⟨(keeps a member).1, clean.values a member⟩

/-- A tree that reads as itself declares no namespaces. -/
theorem namespaceless_of_reread (clean : e.Every CleanElement) (same : e.reread = e) :
    e.Every fun e => ∀ a ∈ e.attributes, a.1 ≠ namespaceKey := by
  induction clean with
  | @intro e _ _ ih =>
    rw [e.reread_eq] at same
    obtain ⟨name, attributes, text, children⟩ := e
    obtain ⟨-, attributesSame, -, childrenSame⟩ := Element.mk.inj same
    refine .intro (fun a member => ?_) fun c member => ih c member ?_
    · dsimp only at member attributesSame
      rw [← attributesSame, readableAttributes] at member
      obtain ⟨b, readable, rfl⟩ := List.mem_map.mp member
      simpa using (List.mem_filter.mp readable).2
    · exact List.map_inj_left.mp (childrenSame.trans (List.map_id _).symm) c member

/-- What reads as itself is within all limits. -/
theorem limits_of_parse (clean : e.Every CleanElement) {text : String} (written : serialize e = .ok text)
    (parsed : parse text = .ok e) : e.Every KeepsKeys ∧ e.depth ≤ nestingLimit + 1 ∧ e.references ≤ expansionLimit := by
  obtain ⟨settled, flat⟩ := sound_of_parse parsed
  have kept : e.Every fun e => ∀ a ∈ e.attributes, a.1 ∉ reservedAttributes ∧ a.1 ∉ guardedAttributes :=
    settled.imp fun e here a member => here.attributes.kept a.1 (List.mem_map_of_mem member)
  have printable : e.Every Printable := (clean.and kept).imp fun _ both => both.1.printable both.2
  obtain ⟨printed, same, reads⟩ := parse_serialize printable flat
  rw [written] at same
  cases same
  obtain ⟨few, same⟩ := (reads e).mp parsed
  have declaresNone := namespaceless_of_reread clean same.symm
  exact ⟨(declaresNone.and kept).imp fun _ both a member => ⟨both.1 a member, both.2 a member⟩, flat, few⟩

/-- A clean tree prints, and it comes back from its text exactly if it is within the limits of the reader. -/
theorem parse_serialize_self_iff (clean : e.Every CleanElement) :
    ∃ text, serialize e = .ok text ∧
      (parse text = .ok e ↔ e.Every KeepsKeys ∧ e.depth ≤ nestingLimit + 1 ∧ e.references ≤ expansionLimit) := by
  have written := serialize_eq (clean.imp fun _ here => here.name)
  refine ⟨_, written, limits_of_parse clean written, ?_⟩
  rintro ⟨keeps, flat, few⟩
  have both := clean.and keeps
  exact parse_of_serialize (both.imp fun _ here => here.1.printable fun a member => (here.2 a member).2)
    (both.imp fun _ here => here.1.faithful here.2) flat few written

/-- A tree whose texts look like markup. -/
def mixedTree : Element :=
  { name := "a"
    attributes := [("k", "<\"&amp;\">"), ("j", "it's")]
    text := "&lt; & ']]>'"
    children := [{ name := "b" }, { name := "c", text := "&#38;lt;", children := [.ofText "d" "</d>"] }] }

theorem parse_serialize_mixedTree : mixedTree.Every CleanElement ∧ ∃ text, serialize mixedTree = .ok text ∧ parse text = .ok mixedTree := by
  have clean : mixedTree.Every CleanElement := by decide +kernel
  obtain ⟨text, written, reads⟩ := parse_serialize_self_iff clean
  exact ⟨clean, text, written, reads.mpr ⟨by decide +kernel, by decide, by decide⟩⟩

/-- A clean tree that does not come back. -/
def Lost (e : Element) : Prop := e.Every CleanElement ∧ ¬ ∃ text, serialize e = .ok text ∧ parse text = .ok e

theorem lost_of_beyond (clean : e.Every CleanElement)
    (beyond : ¬ (e.Every KeepsKeys ∧ e.depth ≤ nestingLimit + 1 ∧ e.references ≤ expansionLimit)) : Lost e :=
  ⟨clean, fun ⟨_, written, parsed⟩ => beyond (limits_of_parse clean written parsed)⟩

/-- A text within some elements, one in the other. -/
def nestedTree : Nat → Element
  | 0 => .ofText "a" "x"
  | n + 1 => { name := "a", children := [nestedTree n] }

theorem clean_nestedTree (n : Nat) : (nestedTree n).Every CleanElement := by
  have named : ∀ text, CleanText text → ∀ children, CleanElement { name := "a", text, children } := fun text clean _ =>
    ⟨(by decide : SimpleName "a"), List.forall_mem_nil _, List.nodup_nil, clean, List.forall_mem_nil _⟩
  induction n with
  | zero => exact .intro (named "x" (by decide) []) (List.forall_mem_nil _)
  | succ n ih => exact .intro (named "" (by decide) [nestedTree n]) (List.forall_mem_singleton.mpr ih)

theorem depth_nestedTree (n : Nat) : (nestedTree n).depth = n + 1 := by
  induction n with
  | zero => rfl
  | succ n ih => simp [nestedTree, Element.depth, Element.depthOf, ih]

/-- A text of single quotes. -/
def quotes (count : Nat) : String := String.ofList (List.replicate count '\'')

theorem clean_quotes (count : Nat) : CleanText (quotes count) := by
  rw [CleanText, quotes, String.toList_ofList]
  refine ⟨trimmed_of_visible fun c member => ?_, fun member => ?_⟩
  · rw [List.eq_of_mem_replicate member]
    rfl
  · exact absurd (List.eq_of_mem_replicate member) (by decide)

theorem references_quotes (count : Nat) : references (quotes count).toList = count := by
  rw [quotes, String.toList_ofList]
  simp [references, characterReferences, List.count_replicate]

theorem clean_ofText_quotes (count : Nat) : (Element.ofText "a" (quotes count)).Every CleanElement :=
  .intro ⟨(by decide : SimpleName "a"), List.forall_mem_nil _, List.nodup_nil, clean_quotes count, List.forall_mem_nil _⟩ (List.forall_mem_nil _)

theorem references_ofText (name text : String) : (Element.ofText name text).references = references text.toList := by
  simp [Element.ofText, Element.references, Element.referencesOf, attributeReferences]

theorem lost_quotes {count : Nat} (many : expansionLimit < count) : Lost (.ofText "a" (quotes count)) := by
  refine lost_of_beyond (clean_ofText_quotes count) fun within => ?_
  have few := within.2.2
  rw [references_ofText, references_quotes] at few
  exact absurd few (Nat.not_le.mpr many)

theorem lost_nestedTree {n : Nat} (deep : nestingLimit < n) : Lost (nestedTree n) := by
  refine lost_of_beyond (clean_nestedTree n) fun within => ?_
  have flat := within.2.1
  rw [depth_nestedTree] at flat
  omega

/-- A key that is dropped, one that is refused, one that is renamed, a level too many and a replacement too many. -/
theorem lost_trees :
    Lost { name := "a", attributes := [("xmlns", "v")] } ∧ Lost { name := "a", attributes := [("constructor", "v")] } ∧
      Lost { name := "a", attributes := [("toString", "v")] } ∧ Lost (nestedTree 101) ∧ Lost (.ofText "a" (quotes 1001)) := by
  refine ⟨lost_of_beyond (by decide +kernel) ?_, lost_of_beyond (by decide +kernel) ?_, lost_of_beyond (by decide +kernel) ?_,
    lost_nestedTree (by decide), lost_quotes (by decide)⟩
  · exact fun within => absurd within.1 (by decide)
  · exact fun within => absurd within.1 (by decide)
  · exact fun within => absurd within.1 (by decide)

end WorkflowCompiler.Markup
