import WorkflowCompiler.Proofs.Markup.RoundTrip

/-!
What the trees that are read have in common: the keys of their attributes are distinct and
none that markup keeps for itself, their texts are trimmed and without carriage returns, and
they are not deeper than the reader allows (`every_settled_of_parse`, `depth_of_parse`).
-/
namespace WorkflowCompiler.Markup
open Text

/-! ### No carriage returns come in -/

theorem fillTemplate_unbroken {before after value : List Char} (front : '\r' ∉ before) (back : '\r' ∉ after)
    (unbroken : '\r' ∉ value) : '\r' ∉ fillTemplate before after value := by
  fun_induction fillTemplate before after value with
  | case1 rest ih => simp_all
  | case2 rest ih => simp_all
  | case3 rest ih => simp_all
  | case4 c rest _ _ _ ih => simp_all
  | case5 => simp

theorem replaceEach_unbroken {found : List Char → Option Nat} {value : List Char → List Char → List Char}
    (values : ∀ before after, '\r' ∉ before → '\r' ∉ after → '\r' ∉ value before after) {before : List Char} (front : '\r' ∉ before)
    {cs : List Char} (unbroken : '\r' ∉ cs) (skip : Nat) : '\r' ∉ (replaceEach found value before skip cs).1 := by
  induction cs generalizing before skip with
  | nil => simp [replaceEach]
  | cons c cs ih =>
    obtain ⟨other, others⟩ := not_or.mp fun h => unbroken (List.mem_cons.mpr h)
    have further : '\r' ∉ c :: before := by simp [other, front]
    cases skip with
    | succ skip =>
      rw [replaceEach]
      exact ih further others skip
    | zero =>
      rw [replaceEach]
      split
      · rename_i length _
        have rest : '\r' ∉ (c :: cs).drop length := fun member => unbroken (List.mem_of_mem_drop member)
        simp only [List.mem_append, not_or]
        exact ⟨values _ _ front rest, ih further others _⟩
      · simp only [List.mem_cons, not_or]
        exact ⟨other, ih further others _⟩

theorem Expansions.declared_grown {x y : Expansions} {more : Int} (grown : x.grown more = .ok y) : y.declared = x.declared := by
  simp only [Expansions.grown] at grown
  split at grown
  · cases grown
  · cases grown
    rfl

theorem expandDeclared_declared {declared : List (List Char × List Char)} {x : Expansions} {cs : List Char}
    {result : List Char × Expansions} (expanded : expandDeclared x cs declared = .ok result) : result.2.declared = x.declared := by
  induction declared generalizing x cs with
  | nil =>
    cases expanded
    rfl
  | cons e rest ih =>
    obtain ⟨y, counted, later⟩ := bind_eq_ok.mp expanded
    obtain ⟨z, grown, last⟩ := bind_eq_ok.mp later
    obtain ⟨_, rfl⟩ := (Expansions.counted_eq_ok _ _ _).mp counted
    rw [ih last, Expansions.declared_grown grown, Expansions.declared_spend]

theorem expandCharacters_declared {refs : List (Char × List (List Char))} {x : Expansions} {cs : List Char}
    {result : List Char × Expansions} (expanded : expandCharacters x cs refs = .ok result) : result.2.declared = x.declared := by
  induction refs generalizing x cs with
  | nil =>
    cases expanded
    rfl
  | cons r rest ih =>
    obtain ⟨y, counted, later⟩ := bind_eq_ok.mp expanded
    obtain ⟨_, rfl⟩ := (Expansions.counted_eq_ok _ _ _).mp counted
    rw [ih later, Expansions.declared_spend]

theorem expand_declared {x : Expansions} {cs : List Char} {result : List Char × Expansions} (expanded : expand x cs = .ok result) :
    result.2.declared = x.declared := by
  unfold expand at expanded
  split at expanded
  · cases expanded
    rfl
  · obtain ⟨⟨filled, y⟩, declared, expanded⟩ := bind_eq_ok.mp expanded
    have same := expandDeclared_declared declared
    dsimp only at expanded
    split at expanded
    · cases expanded
      exact same
    · obtain ⟨⟨filled', z⟩, characters, expanded⟩ := bind_eq_ok.mp expanded
      cases expanded
      exact (expandCharacters_declared characters).trans same

theorem expandDeclared_unbroken {declared : List (List Char × List Char)} (values : ∀ e ∈ declared, '\r' ∉ e.2) {x : Expansions}
    {cs : List Char} (unbroken : '\r' ∉ cs) {result : List Char × Expansions} (expanded : expandDeclared x cs declared = .ok result) :
    '\r' ∉ result.1 := by
  induction declared generalizing x cs with
  | nil =>
    cases expanded
    exact unbroken
  | cons e rest ih =>
    obtain ⟨first, others⟩ := List.forall_mem_cons.mp values
    obtain ⟨name, value⟩ := e
    obtain ⟨y, counted, expanded⟩ := bind_eq_ok.mp expanded
    obtain ⟨z, grown, expanded⟩ := bind_eq_ok.mp expanded
    exact ih others (replaceEach_unbroken (fun _ _ front back => fillTemplate_unbroken front back first) List.not_mem_nil unbroken 0)
      expanded

theorem expandCharacters_unbroken {refs : List (Char × List (List Char))} (values : ∀ r ∈ refs, r.1 ≠ '\r') {x : Expansions}
    {cs : List Char} (unbroken : '\r' ∉ cs) {result : List Char × Expansions} (expanded : expandCharacters x cs refs = .ok result) :
    '\r' ∉ result.1 := by
  induction refs generalizing x cs with
  | nil =>
    cases expanded
    exact unbroken
  | cons r rest ih =>
    obtain ⟨first, others⟩ := List.forall_mem_cons.mp values
    obtain ⟨value, spellings⟩ := r
    obtain ⟨y, counted, expanded⟩ := bind_eq_ok.mp expanded
    have filled : '\r' ∉ (replaceCharacter value spellings cs).1 :=
      replaceEach_unbroken (fun _ _ _ _ => by simpa using Ne.symm first) List.not_mem_nil unbroken 0
    exact ih others filled expanded

theorem expand_unbroken {x : Expansions} (values : ∀ e ∈ x.declared, '\r' ∉ e.2) {cs : List Char} (unbroken : '\r' ∉ cs)
    {result : List Char × Expansions} (expanded : expand x cs = .ok result) : '\r' ∉ result.1 := by
  unfold expand at expanded
  split at expanded
  · cases expanded
    exact unbroken
  · obtain ⟨⟨filled, y⟩, declared, expanded⟩ := bind_eq_ok.mp expanded
    have clean := expandDeclared_unbroken values unbroken declared
    dsimp only at expanded clean
    split at expanded
    · cases expanded
      exact clean
    · obtain ⟨⟨filled', z⟩, characters, expanded⟩ := bind_eq_ok.mp expanded
      have clean' := expandCharacters_unbroken (by decide) clean characters
      cases expanded
      exact replaceEach_unbroken (fun _ _ _ _ => by decide) List.not_mem_nil clean' 0

/-! ### Parts of a text -/

theorem dropWhile_subset {p : Char → Bool} {cs : List Char} : cs.dropWhile p ⊆ cs := (List.dropWhile_suffix p).subset

theorem tail_dropWhile_subset {p : Char → Bool} {cs : List Char} : (cs.dropWhile p).tail ⊆ cs :=
  List.Subset.trans (List.tail_sublist _).subset dropWhile_subset

/-- What follows the blanks before a name, the name and the blanks after it. -/
theorem afterName_subset {p q r : Char → Bool} {cs : List Char} : ((cs.dropWhile p).dropWhile q).dropWhile r ⊆ cs :=
  List.Subset.trans dropWhile_subset (List.Subset.trans dropWhile_subset dropWhile_subset)

theorem takeWhile_subset {p : Char → Bool} {cs : List Char} : cs.takeWhile p ⊆ cs := (List.takeWhile_prefix p).subset

theorem afterPrefix?_subset {mark cs rest : List Char} (found : afterPrefix? mark cs = some rest) : rest ⊆ cs := by
  rw [eq_append_of_afterPrefix? found]
  exact List.subset_append_right mark rest

theorem breakOn_subset {mark cs before rest : List Char} (found : breakOn mark cs = some (before, rest)) : rest ⊆ cs := by
  rw [eq_append_of_breakOn found]
  exact List.subset_append_right (before ++ mark) rest

theorem dropUnits_subset (n : Nat) (cs : List Char) : dropUnits n cs ⊆ cs := by
  induction cs generalizing n with
  | nil => cases n <;> exact List.Subset.refl _
  | cons c cs ih =>
    cases n with
    | zero => exact List.Subset.refl _
    | succ n => exact List.subset_cons_of_subset c (ih _)

theorem tagText_subset {mark cs text rest : List Char} {quote : Option Char} (found : tagText mark quote cs = some (text, rest)) :
    rest ⊆ cs := by
  induction cs generalizing quote text with
  | nil => cases quote <;> cases found
  | cons c cs ih =>
    cases quote with
    | some q =>
      rw [tagText] at found
      obtain ⟨⟨_, _⟩, within, same⟩ := Option.map_eq_some_iff.mp found
      cases same
      exact List.subset_cons_of_subset c (ih within)
    | none =>
      rw [tagText] at found
      split at found
      · rename_i after ends
        cases found
        exact afterPrefix?_subset ends
      · obtain ⟨⟨_, _⟩, within, same⟩ := Option.map_eq_some_iff.mp found
        cases same
        exact List.subset_cons_of_subset c (ih within)

theorem identifierValue_subset {what : String} {cs value rest : List Char} (found : identifierValue what cs = .ok (value, rest)) :
    value ⊆ cs ∧ rest ⊆ cs := by
  unfold identifierValue at found
  split at found
  · cases found
  · rename_i q cs
    split at found
    · cases found
    · split at found
      · cases found
        exact ⟨List.subset_cons_of_subset q takeWhile_subset, List.subset_cons_of_subset q tail_dropWhile_subset⟩
      · cases found

theorem entityDeclaration_subset {cs rest : List Char} {entity : List Char × List Char}
    (found : entityDeclaration cs = .ok (entity, rest)) : entity.2 ⊆ cs ∧ rest ⊆ cs := by
  unfold entityDeclaration at found
  simp only at found
  obtain ⟨_, _, found⟩ := bind_eq_ok.mp found
  split at found
  · cases found
  · split at found
    · cases found
    · obtain ⟨⟨value, more⟩, identifier, found⟩ := bind_eq_ok.mp found
      obtain ⟨values, more⟩ := identifierValue_subset identifier
      dsimp only at found
      split at found
      · cases found
      · cases found
        exact ⟨List.Subset.trans values afterName_subset, List.Subset.trans more afterName_subset⟩

theorem blankTerminated_subset {cs name rest : List Char} (cut : blankTerminated (cs.dropWhile isBlank) = (name, rest)) :
    rest.dropWhile isBlank ⊆ cs := by
  cases cut
  exact afterName_subset

theorem elementDeclaration_subset {cs rest : List Char} (found : elementDeclaration cs = .ok rest) : rest ⊆ cs := by
  unfold elementDeclaration at found
  cases cut : blankTerminated (cs.dropWhile isBlank) with
  | mk name more =>
  refine List.Subset.trans ?_ (blankTerminated_subset cut)
  rw [cut] at found
  dsimp only at found
  generalize more.dropWhile isBlank = model at found ⊢
  split at found
  · cases found
  · split at found
    · rename_i empty
      cases found
      exact afterPrefix?_subset empty
    · rename_i any
      cases found
      exact afterPrefix?_subset any
    · split at found
      · cases found
        exact List.subset_cons_of_subset _ tail_dropWhile_subset
      · cases found
    · cases found

theorem notationDeclaration_subset {cs rest : List Char} (found : notationDeclaration cs = .ok rest) : rest ⊆ cs := by
  unfold notationDeclaration at found
  cases cut : blankTerminated (cs.dropWhile isBlank) with
  | mk name more =>
  refine List.Subset.trans ?_ (List.Subset.trans (dropUnits_subset 6 _) (blankTerminated_subset cut))
  refine List.Subset.trans ?_ (dropWhile_subset : (dropUnits 6 (more.dropWhile isBlank)).dropWhile isBlank ⊆ _)
  rw [cut] at found
  dsimp only at found
  obtain ⟨_, _, found⟩ := bind_eq_ok.mp found
  generalize (dropUnits 6 (more.dropWhile isBlank)).dropWhile isBlank = identifiers at found ⊢
  split at found
  · obtain ⟨⟨_, more⟩, identifier, found⟩ := bind_eq_ok.mp found
    refine List.Subset.trans ?_ (identifierValue_subset identifier).2
    refine List.Subset.trans ?_ (dropWhile_subset : more.dropWhile isBlank ⊆ more)
    dsimp only at found
    split at found
    · rename_i q rest' shape
      rw [shape]
      split at found
      · obtain ⟨⟨_, last⟩, identifier, found⟩ := bind_eq_ok.mp found
        cases found
        exact (identifierValue_subset identifier).2
      · cases found
        exact List.Subset.refl _
    · cases found
      exact List.nil_subset _
  · split at found
    · obtain ⟨⟨value, more⟩, identifier, found⟩ := bind_eq_ok.mp found
      refine List.Subset.trans ?_ (identifierValue_subset identifier).2
      dsimp only at found
      split at found
      · cases found
      · cases found
        exact List.Subset.refl _
    · cases found

theorem declaration?_subset {cs rest : List Char} {entity : Option (List Char × List Char)}
    (found : declaration? cs = some (.ok (entity, rest))) : (∀ e ∈ entity, e.2 ⊆ cs) ∧ rest ⊆ cs := by
  unfold declaration? at found
  split at found
  · rename_i more begins
    obtain ⟨⟨e, after⟩, declared, same⟩ := map_eq_ok.mp (Option.some.inj found)
    obtain ⟨value, shorter⟩ := entityDeclaration_subset declared
    have inner := afterPrefix?_subset begins
    cases same
    refine ⟨?_, List.Subset.trans shorter inner⟩
    rintro _ ⟨⟩
    exact List.Subset.trans value inner
  · split at found
    · rename_i more begins
      obtain ⟨after, declared, same⟩ := map_eq_ok.mp (Option.some.inj found)
      cases same
      exact ⟨by simp, List.Subset.trans (elementDeclaration_subset declared) (afterPrefix?_subset begins)⟩
    · split at found
      · rename_i more begins
        cases found
        exact ⟨by simp, afterPrefix?_subset begins⟩
      · obtain ⟨more, begins, declared⟩ := Option.map_eq_some_iff.mp found
        obtain ⟨after, declared, same⟩ := map_eq_ok.mp declared
        cases same
        exact ⟨by simp, List.Subset.trans (notationDeclaration_subset declared) (afterPrefix?_subset begins)⟩

/-- The values of declared entities are without carriage returns. -/
def UnbrokenValues (declared : List (List Char × List Char)) : Prop := ∀ e ∈ declared, '\r' ∉ e.2

theorem UnbrokenValues.declare {declared : List (List Char × List Char)} (values : UnbrokenValues declared)
    {entity : List Char × List Char} (value : '\r' ∉ entity.2) : UnbrokenValues (declare entity declared) := by
  unfold Markup.declare
  split
  · exact values
  · split
    · intro e member
      obtain ⟨d, within, rfl⟩ := List.mem_map.mp member
      split
      · exact value
      · exact values d within
    · intro e member
      rcases List.mem_append.mp member with within | last
      · exact values e within
      · rw [List.mem_singleton.mp last]
        exact value

theorem doctypeBody_unbroken {fuel : Nat} {st : DoctypeState} {cs : List Char} (values : UnbrokenValues st.declared)
    (unbroken : '\r' ∉ cs) {declared : List (List Char × List Char)} {rest : List Char}
    (read : doctypeBody fuel st cs = .ok (declared, rest)) : UnbrokenValues declared ∧ '\r' ∉ rest := by
  induction fuel generalizing st cs with
  | zero => cases read
  | succ fuel ih =>
    cases cs with
    | nil => cases read
    | cons c cs =>
      have others : '\r' ∉ cs := fun member => unbroken (List.mem_cons_of_mem c member)
      rw [doctypeBody] at read
      split at read
      · split at read
        · exact ih (by exact values) others read
        · exact ih (by exact values) others read
      · split at read
        · split at read
          · cases read
          · rename_i found
            split at found
            · have shorter := (declaration?_subset found).2
              exact ih (by exact values) (fun member => others (shorter member)) read
            · cases found
          · rename_i found
            split at found
            · obtain ⟨value, shorter⟩ := declaration?_subset found
              exact ih (values.declare fun member => others (value _ rfl member)) (fun member => others (shorter member)) read
            · cases found
          · split at read
            · exact ih (by exact values) others read
            · cases read
        · split at read
          · split at read
            · cases read
              exact ⟨values, others⟩
            · exact ih (by exact values) others read
          · exact ih (by exact values) others read

theorem doctype_unbroken {cs : List Char} (unbroken : '\r' ∉ cs) {declared : List (List Char × List Char)} {rest : List Char}
    (read : doctype cs = .ok (declared, rest)) : UnbrokenValues declared ∧ '\r' ∉ rest := by
  unfold doctype at read
  split at read
  · cases read
  · rename_i begins
    exact doctypeBody_unbroken (by intro e member; cases member) (fun member => unbroken (afterPrefix?_subset begins member)) read

/-! ### What is open -/

/-- Attributes as they can be read. -/
structure SoundAttributes (as : List (String × String)) : Prop where
  kept : ∀ k ∈ as.map Prod.fst, k ∉ reservedAttributes ∧ k ∉ guardedAttributes
  distinct : (as.map Prod.fst).Nodup

theorem SoundAttributes.nil : SoundAttributes [] := ⟨List.forall_mem_nil _, List.nodup_nil⟩

/-- What is common to the elements of trees that were read. -/
structure Settled (e : Element) : Prop where
  attributes : SoundAttributes e.attributes
  trimmed : Trimmed e.text.toList
  unbroken : '\r' ∉ e.text.toList

/-- What is common to elements that are open. -/
structure OpenElement.Sound (o : OpenElement) (room : Nat) : Prop where
  attributes : SoundAttributes o.attributes
  unbroken : '\r' ∉ o.text
  settled : ∀ c ∈ o.children, c.Every Settled
  flat : ∀ c ∈ o.children, c.depth ≤ room

/-- Elements that are open, each within the next, with room for as many levels around the innermost as
    the reader allows. -/
inductive SoundStack : List OpenElement → Prop
  | nil : SoundStack []
  | cons {o : OpenElement} {outer : List OpenElement} {room : Nat} (room_eq : outer.length + room = nestingLimit) (sound : o.Sound room)
      (below : SoundStack outer) : SoundStack (o :: outer)

theorem depthOf_le {es : List Element} {room : Nat} (each : ∀ e ∈ es, e.depth ≤ room) : Element.depthOf es ≤ room := by
  induction es with
  | nil => exact Nat.zero_le _
  | cons e es ih =>
    obtain ⟨first, others⟩ := List.forall_mem_cons.mp each
    exact Nat.max_le.mpr ⟨first, ih others⟩

/-- An element with its depth closes into the room that was there for it. -/
theorem OpenElement.Sound.close {o : OpenElement} {room : Nat} (sound : o.Sound room) :
    o.close.Every Settled ∧ o.close.depth ≤ room + 1 := by
  have trimmed := trimmed_trimChars o.text
  have unbroken : '\r' ∉ trimChars o.text := fun member => sound.unbroken (trimChars_subset _ member)
  constructor
  · refine .intro ⟨sound.attributes, ?_, ?_⟩ fun c member => sound.settled c (List.mem_reverse.mp member)
    · simpa [OpenElement.close] using trimmed
    · simpa [OpenElement.close] using unbroken
  · rw [OpenElement.close, Element.depth]
    split
    · exact Nat.zero_le _
    · exact Nat.succ_le_succ (depthOf_le fun c member => sound.flat c (List.mem_reverse.mp member))

structure Reading.Sound (r : Reading) : Prop where
  stack : SoundStack r.open_
  settled : ∀ e ∈ r.roots, e.Every Settled
  flat : ∀ e ∈ r.roots, e.depth ≤ nestingLimit + 1
  pending : '\r' ∉ r.pending
  values : UnbrokenValues r.expansions.declared

theorem mem_consElement {e c : Element} {others : List Element} (member : c ∈ consElement e others) : c = e ∨ c ∈ others := by
  unfold consElement at member
  split at member
  · exact .inr member
  · exact List.mem_cons.mp member

theorem SoundStack.length_le {os : List OpenElement} (sound : SoundStack os) : os.length ≤ nestingLimit + 1 := by
  cases sound with
  | nil => exact Nat.zero_le _
  | cons room_eq _ _ =>
    rw [List.length_cons]
    omega

namespace Reading.Sound
variable {r s : Reading}

theorem addElement (sound : r.Sound) {e : Element} (settled : e.Every Settled)
    (fits : r.open_.length + e.depth ≤ nestingLimit + 1) : (r.addElement e).Sound := by
  obtain ⟨open_, roots, ended, pending, x⟩ := r
  obtain ⟨stack, settledRoots, flat, clean, values⟩ := sound
  cases stack with
  | nil =>
    refine ⟨.nil, ?_, ?_, clean, values⟩
    all_goals
      intro c member
      rcases mem_consElement member with rfl | earlier
    · exact settled
    · exact settledRoots c earlier
    · simpa using fits
    · exact flat c earlier
  | @cons o outer room room_eq inner below =>
    refine ⟨.cons room_eq ⟨inner.attributes, inner.unbroken, ?_, ?_⟩ below, settledRoots, flat, clean, values⟩
    all_goals
      intro c member
      rcases mem_consElement member with rfl | earlier
    · exact settled
    · exact inner.settled c earlier
    · simp only [List.length_cons] at fits
      omega
    · exact inner.flat c earlier

theorem addText (sound : r.Sound) {cs : List Char} (unbroken : '\r' ∉ cs) : (r.addText cs).Sound := by
  obtain ⟨open_, roots, ended, pending, x⟩ := r
  obtain ⟨stack, settled, flat, clean, values⟩ := sound
  cases stack with
  | nil => exact ⟨.nil, settled, flat, clean, values⟩
  | cons room_eq inner below =>
    refine ⟨.cons room_eq ⟨inner.attributes, ?_, inner.settled, inner.flat⟩ below, settled, flat, clean, values⟩
    simp only [List.mem_append, not_or]
    exact ⟨inner.unbroken, unbroken⟩

theorem flush (sound : r.Sound) (flushed : r.flush = .ok s) : s.Sound := by
  unfold Reading.flush at flushed
  split at flushed
  · cases flushed
    exact sound
  · split at flushed
    · cases flushed
    · obtain ⟨⟨cs, x⟩, expanded, same⟩ := bind_eq_ok.mp flushed
      have clean : '\r' ∉ trimChars r.pending.reverse := fun member =>
        sound.pending (List.mem_reverse.mp (trimChars_subset _ member))
      have added := sound.addText (expand_unbroken sound.values clean expanded)
      have declared := expand_declared expanded
      cases same
      refine ⟨added.stack, added.settled, added.flat, List.not_mem_nil, ?_⟩
      show UnbrokenValues x.declared
      rw [show x.declared = r.expansions.declared from declared]
      exact sound.values

theorem closeInnermost (sound : r.Sound) : r.closeInnermost.Sound := by
  obtain ⟨open_, roots, ended, pending, x⟩ := r
  obtain ⟨stack, settled, flat, clean, values⟩ := sound
  cases stack with
  | nil => exact ⟨.nil, settled, flat, clean, values⟩
  | @cons o outer room room_eq inner below =>
    obtain ⟨closed, depth⟩ := inner.close
    have around : Reading.Sound ⟨outer, roots, ended, pending, x⟩ := ⟨below, settled, flat, clean, values⟩
    refine around.addElement closed ?_
    dsimp only
    omega

end Reading.Sound

theorem attributeKey_kept {name key : String} (read : attributeKey name = .ok key) :
    key ∉ reservedAttributes ∧ key ∉ guardedAttributes := by
  unfold attributeKey at read
  split at read
  · cases read
  · rename_i notReserved
    split at read
    · rename_i guarded
      cases read
      simp only [guardedAttributes, List.mem_cons, List.not_mem_nil, or_false] at guarded
      rcases guarded with rfl | rfl | rfl | rfl | rfl | rfl | rfl <;> decide
    · rename_i notGuarded
      cases read
      exact ⟨notReserved, notGuarded⟩

theorem readAttributes_sound {x y : Expansions} {before after : List (String × String)} {scanned : List (List Char × Option (List Char))}
    (sound : SoundAttributes before) (read : readAttributes x before scanned = .ok (after, y)) :
    SoundAttributes after ∧ y.declared = x.declared := by
  induction scanned generalizing x before with
  | nil =>
    cases read
    exact ⟨sound, rfl⟩
  | cons a rest ih =>
    obtain ⟨name, value⟩ := a
    rw [readAttributes] at read
    split at read
    · exact ih sound read
    · obtain ⟨key, named, read⟩ := bind_eq_ok.mp read
      split at read
      · exact ih sound read
      · obtain ⟨⟨cs, z⟩, expanded, read⟩ := bind_eq_ok.mp read
        have further : SoundAttributes (putField key (String.ofList cs) before) := by
          refine ⟨fun k member => ?_, nodup_keys_putField sound.distinct⟩
          rcases mem_keys_putField member with rfl | earlier
          · exact attributeKey_kept named
          · exact sound.kept k earlier
        obtain ⟨result, same⟩ := ih further read
        exact ⟨result, same.trans (expand_declared expanded)⟩

/-- Opens an element once the text in front of it is settled. -/
def Reading.openNow (r : Reading) (tag : StartTag) : Except ReadFault Reading :=
  if !tag.closesItself && r.open_.length > nestingLimit then .error .tooDeep
  else
    readAttributes r.expansions [] (collectAttributes tag.attributes) >>= fun (attributes, x) =>
      let o : OpenElement := { name := elementKey tag.name, attributes }
      if r.ended then .error .elementAfterDocument
      else
        .ok (if tag.closesItself then { r with expansions := x }.addElement o.close
          else { r with expansions := x, open_ := o :: r.open_ })

theorem Reading.openTag_eq (r : Reading) (tag : StartTag) :
    r.openTag tag = if r.dropsText then { r with pending := [] }.openNow tag else r.flush >>= fun r => r.openNow tag := rfl

namespace Reading.Sound
variable {r s : Reading}

theorem openNow (sound : r.Sound) {tag : StartTag} (opened : r.openNow tag = .ok s) : s.Sound := by
  unfold Reading.openNow at opened
  split at opened
  · cases opened
  · rename_i room
    obtain ⟨⟨attributes, x⟩, read, opened⟩ := bind_eq_ok.mp opened
    obtain ⟨named, same⟩ := readAttributes_sound SoundAttributes.nil read
    have values : UnbrokenValues x.declared := by
      rw [same]
      exact sound.values
    have base : Reading.Sound { r with expansions := x } := ⟨sound.stack, sound.settled, sound.flat, sound.pending, values⟩
    dsimp only at opened
    split at opened
    · cases opened
    · cases opened
      let o : OpenElement := { name := elementKey tag.name, attributes }
      have new (room : Nat) : o.Sound room := ⟨named, List.not_mem_nil, List.forall_mem_nil _, List.forall_mem_nil _⟩
      cases closes : tag.closesItself with
      | true =>
        have empty : o.close.depth = 0 := rfl
        refine base.addElement (new 0).close.1 ?_
        rw [empty]
        exact sound.stack.length_le
      | false =>
        have shallow : r.open_.length ≤ nestingLimit := by simpa [closes] using room
        exact ⟨.cons (Nat.add_sub_of_le shallow) (new _) sound.stack, sound.settled, sound.flat, sound.pending, values⟩

theorem openTag (sound : r.Sound) {tag : StartTag} (opened : r.openTag tag = .ok s) : s.Sound := by
  rw [Reading.openTag_eq] at opened
  split at opened
  · have dropped : Reading.Sound { r with pending := [] } :=
      ⟨sound.stack, sound.settled, sound.flat, List.not_mem_nil, sound.values⟩
    exact dropped.openNow opened
  · obtain ⟨t, flushed, opened⟩ := bind_eq_ok.mp opened
    exact (sound.flush flushed).openNow opened

theorem addLiteral (sound : r.Sound) {cs : List Char} (unbroken : '\r' ∉ cs) (added : r.addLiteral cs = .ok s) : s.Sound := by
  obtain ⟨t, flushed, added⟩ := bind_eq_ok.mp added
  split at added
  · cases added
  · cases added
    exact (sound.flush flushed).addText unbroken

theorem literalText_unbroken {whole before : List Char} (clean : '\r' ∉ whole) (front : '\r' ∉ before) :
    '\r' ∉ literalText whole before := by
  unfold literalText
  split
  · exact fun member => front (dropUnits_subset _ _ member)
  · exact fun member => clean (List.mem_of_mem_take (List.mem_of_mem_drop member))

theorem markup (sound : r.Sound) {cs after : List Char} (unbroken : '\r' ∉ cs) (read : r.markup cs = .ok (s, after)) :
    s.Sound ∧ '\r' ∉ after := by
  unfold Reading.markup at read
  split at read
  -- an end tag
  · rename_i rest
    have others : '\r' ∉ rest := fun member => unbroken (List.mem_cons_of_mem _ member)
    split at read
    · cases read
    · rename_i found
      split at read
      · cases read
        have dropped : Reading.Sound { r with pending := [] } :=
          ⟨sound.stack, sound.settled, sound.flat, List.not_mem_nil, sound.values⟩
        exact ⟨dropped.closeInnermost, fun member => others (breakOn_subset found member)⟩
      · obtain ⟨t, flushed, read⟩ := bind_eq_ok.mp read
        cases read
        exact ⟨(sound.flush flushed).closeInnermost, fun member => others (breakOn_subset found member)⟩
  -- an instruction
  · split at read
    · cases read
    · rename_i found
      obtain ⟨t, flushed, same⟩ := map_eq_ok.mp read
      cases same
      exact ⟨sound.flush flushed, fun member => unbroken (tagText_subset found member)⟩
  -- a comment
  · split at read
    · cases read
    · rename_i rest _ _ _ found
      cases read
      exact ⟨sound, fun member => unbroken (by simp [breakOn_subset found member])⟩
  -- the document type
  · obtain ⟨⟨declared, rest⟩, typed, same⟩ := map_eq_ok.mp read
    obtain ⟨values, left⟩ := doctype_unbroken (fun member => unbroken (List.mem_cons_of_mem _ member)) typed
    cases same
    exact ⟨⟨sound.stack, sound.settled, sound.flat, sound.pending, values⟩, left⟩
  -- literal text
  · split at read
    · cases read
    · rename_i more _ before rest found
      have whole : '\r' ∉ '<' :: '!' :: '[' :: more := by simpa using unbroken
      obtain ⟨t, added, same⟩ := map_eq_ok.mp read
      cases same
      have front : '\r' ∉ before := by
        intro member
        refine whole ?_
        rw [eq_append_of_breakOn found]
        simp [member]
      exact ⟨sound.addLiteral (literalText_unbroken whole front) added, fun member => whole (breakOn_subset found member)⟩
  -- a start tag
  · split at read
    · cases read
    · rename_i found
      split at read
      · cases read
      · obtain ⟨t, opened, same⟩ := map_eq_ok.mp read
        cases same
        exact ⟨sound.openTag opened, fun member => unbroken (tagText_subset found member)⟩

theorem readFrom {fuel : Nat} (sound : r.Sound) {cs : List Char} (unbroken : '\r' ∉ cs) (read : Reading.readFrom fuel r cs = .ok s) :
    s.Sound := by
  induction fuel generalizing r cs with
  | zero =>
    cases read
    exact sound
  | succ fuel ih =>
    cases cs with
    | nil =>
      cases read
      exact sound
    | cons c rest =>
      obtain ⟨other, others⟩ := not_or.mp fun h => unbroken (List.mem_cons.mpr h)
      rw [Reading.readFrom] at read
      split at read
      · split at read
        · cases read
        · rename_i marked
          obtain ⟨further, left⟩ := sound.markup others marked
          exact ih further left read
      · have further : Reading.Sound { r with pending := c :: r.pending } :=
          ⟨sound.stack, sound.settled, sound.flat, by simp [other, sound.pending], sound.values⟩
        exact ih further others read

end Reading.Sound

/-- What is still open at the end closes into trees of the same kind. -/
theorem closeAll_sound {os : List OpenElement} {roots : List Element} (stack : SoundStack os) (settled : ∀ e ∈ roots, e.Every Settled)
    (flat : ∀ e ∈ roots, e.depth ≤ nestingLimit + 1) :
    ∀ e ∈ Reading.closeAll os roots, e.Every Settled ∧ e.depth ≤ nestingLimit + 1 := by
  fun_induction Reading.closeAll os roots with
  | case1 roots => exact fun e member => ⟨settled e member, flat e member⟩
  | case2 o roots =>
    cases stack with
    | cons room_eq inner _ =>
      obtain ⟨closed, depth⟩ := inner.close
      intro e member
      rcases mem_consElement member with rfl | earlier
      · rw [List.length_nil, Nat.zero_add] at room_eq
        exact ⟨closed, room_eq ▸ depth⟩
      · exact ⟨settled e earlier, flat e earlier⟩
  | case3 o p outer roots ih =>
    cases stack with
    | cons room_eq inner below =>
      obtain ⟨closed, depth⟩ := inner.close
      cases below with
      | cons room_eq' around below =>
        refine ih (.cons room_eq' ⟨around.attributes, around.unbroken, ?_, ?_⟩ below) settled flat
        all_goals
          intro c member
          rcases mem_consElement member with rfl | earlier
        · exact closed
        · exact around.settled c earlier
        · simp only [List.length_cons] at room_eq
          omega
        · exact around.flat c earlier

/-- What is common to all trees that are read. -/
theorem sound_of_parse {text : String} {root : Element} (parsed : parse text = .ok root) :
    root.Every Settled ∧ root.depth ≤ nestingLimit + 1 := by
  unfold parse at parsed
  split at parsed
  · cases parsed
  · split at parsed
    · cases parsed
    · rename_i elements
      cases parsed
      obtain ⟨r, read, same⟩ := bind_eq_ok.mp elements
      have start : Reading.Sound {} :=
        ⟨.nil, List.forall_mem_nil _, List.forall_mem_nil _, List.not_mem_nil, List.forall_mem_nil _⟩
      have sound := start.readFrom (not_mem_normalizeLines _) read
      have member : root ∈ (Reading.closeAll r.open_ r.roots).reverse := by
        rw [Except.ok.inj same]
        exact List.mem_singleton_self root
      exact closeAll_sound sound.stack sound.settled sound.flat root (List.mem_reverse.mp member)
    · cases parsed

end WorkflowCompiler.Markup
