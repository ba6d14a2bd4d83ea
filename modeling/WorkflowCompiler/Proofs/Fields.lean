import WorkflowCompiler.Value
import Mathlib.Data.List.Perm.Basic
import Mathlib.Data.List.TakeWhile

/-!
Fields that are written one after the other: a key that is there keeps its place,
a new one comes at the end unless it is an index (`lookup_putField`, `putField_perm`).
Indices stand in front in ascending order (`arranged_arrangeFields`), and fields in that
order are written again as they are (`arrangeFields_arranged`).
-/
namespace WorkflowCompiler
variable {α : Type} {key : String} {fields : List (String × α)}

theorem any_key_eq_false (fresh : key ∉ fields.map Prod.fst) : (fields.any fun e => e.1 == key) = false := by
  rw [List.any_eq_false]
  intro e member same
  exact fresh (List.mem_map.mpr ⟨e, member, by simpa using same⟩)

theorem any_key_eq_true (present : key ∈ fields.map Prod.fst) : (fields.any fun e => e.1 == key) = true := by
  obtain ⟨e, member, same⟩ := List.mem_map.mp present
  exact List.any_eq_true.mpr ⟨e, member, by simpa using same⟩

theorem putField_fresh (fresh : key ∉ fields.map Prod.fst) (named : arrayIndex? key = none) (value : α) :
    putField key value fields = fields ++ [(key, value)] := by
  rw [putField, any_key_eq_false fresh, named]
  rfl

theorem putField_perm (fresh : key ∉ fields.map Prod.fst) (value : α) :
    (putField key value fields).Perm ((key, value) :: fields) := by
  rw [putField, any_key_eq_false fresh]
  simp only [Bool.false_eq_true, if_false]
  split
  · exact List.perm_append_singleton _ _
  · refine List.perm_middle.trans ?_
    rw [List.takeWhile_append_dropWhile]

theorem keys_putField (present : key ∈ fields.map Prod.fst) (value : α) :
    (putField key value fields).map Prod.fst = fields.map Prod.fst := by
  rw [putField, if_pos (any_key_eq_true present), List.map_map]
  refine List.map_congr_left fun e _ => ?_
  dsimp only [Function.comp]
  split
  · rename_i same
    exact same.symm
  · rfl

theorem mem_keys_putField {value : α} {k : String} (member : k ∈ (putField key value fields).map Prod.fst) :
    k = key ∨ k ∈ fields.map Prod.fst := by
  by_cases present : key ∈ fields.map Prod.fst
  · rw [keys_putField present] at member
    exact .inr member
  · rw [((putField_perm present value).map Prod.fst).mem_iff] at member
    exact List.mem_cons.mp member

theorem nodup_keys_putField {value : α} (distinct : (fields.map Prod.fst).Nodup) :
    ((putField key value fields).map Prod.fst).Nodup := by
  by_cases present : key ∈ fields.map Prod.fst
  · rw [keys_putField present]
    exact distinct
  · rw [((putField_perm present value).map Prod.fst).nodup_iff]
    exact List.nodup_cons.mpr ⟨present, distinct⟩

theorem lookup_eq_none_of_not_mem (fresh : key ∉ fields.map Prod.fst) : fields.lookup key = none := by
  rw [List.lookup_eq_none_iff]
  intro e member
  rw [bne_iff_ne]
  intro same
  exact fresh (List.mem_map.mpr ⟨e, member, same.symm⟩)

theorem lookup_eq_some_of_mem {e : String × α} (distinct : (fields.map Prod.fst).Nodup) (member : e ∈ fields) :
    fields.lookup e.1 = some e.2 := by
  induction fields with
  | nil => cases member
  | cons first rest ih =>
    rw [List.map_cons, List.nodup_cons] at distinct
    rcases List.mem_cons.mp member with rfl | later
    · rw [List.lookup_cons_self]
    · have other : e.1 ≠ first.1 := fun same => distinct.1 (same ▸ List.mem_map_of_mem later)
      rw [List.lookup_cons, beq_eq_false_iff_ne.mpr other]
      exact ih distinct.2 later

theorem lookup_replaced (present : key ∈ fields.map Prod.fst) (value : α) (k : String) :
    (fields.map fun e => if e.1 = key then (key, value) else e).lookup k =
      if k = key then some value else fields.lookup k := by
  by_cases asked : k = key
  · subst asked
    rw [if_pos rfl]
    induction fields with
    | nil => cases present
    | cons e rest ih =>
      obtain ⟨first, v⟩ := e
      by_cases same : first = k
      · subst same
        simp
      · have other : (k == first) = false := beq_eq_false_iff_ne.mpr fun equal => same equal.symm
        have later : k ∈ rest.map Prod.fst := by
          rcases List.mem_cons.mp present with here | later
          · exact absurd here.symm same
          · exact later
        simpa [List.lookup_cons, same, other] using ih later
  · rw [if_neg asked]
    clear present
    induction fields with
    | nil => rfl
    | cons e rest ih =>
      obtain ⟨first, v⟩ := e
      by_cases same : first = key
      · subst same
        have other : (k == first) = false := beq_eq_false_iff_ne.mpr asked
        simpa [List.lookup_cons, other] using ih
      · simp only [List.map_cons, if_neg same, List.lookup_cons, ih]

theorem lookup_inserted {before : List (String × α)} (fresh : key ∉ before.map Prod.fst) (value : α) (after : List (String × α))
    (k : String) :
    (before ++ (key, value) :: after).lookup k = if k = key then some value else (before ++ after).lookup k := by
  rw [List.lookup_append, List.lookup_append, List.lookup_cons]
  by_cases asked : k = key
  · subst asked
    rw [lookup_eq_none_of_not_mem fresh, if_pos rfl, Option.none_or]
    simp
  · rw [if_neg asked, beq_eq_false_iff_ne.mpr asked]

/-- A field that was written has the value written; every other field keeps its own. -/
theorem lookup_putField (key k : String) (value : α) (fields : List (String × α)) :
    (putField key value fields).lookup k = if k = key then some value else fields.lookup k := by
  by_cases present : key ∈ fields.map Prod.fst
  · rw [putField, if_pos (any_key_eq_true present)]
    exact lookup_replaced present value k
  · rw [putField, any_key_eq_false present]
    simp only [Bool.false_eq_true, if_false]
    split
    · have inserted := lookup_inserted present value [] k
      rwa [List.append_nil] at inserted
    · rename_i index _
      have fresh : key ∉ (fields.takeWhile fun e => precedesIndex index e.1).map Prod.fst := fun earlier =>
        present (((List.takeWhile_sublist _).map Prod.fst).subset earlier)
      have inserted := lookup_inserted fresh value (fields.dropWhile fun e => precedesIndex index e.1) k
      rwa [List.takeWhile_append_dropWhile] at inserted

/-- Writing what is there already changes nothing. -/
theorem putField_self {value : α} (distinct : (fields.map Prod.fst).Nodup) (there : fields.lookup key = some value) :
    putField key value fields = fields := by
  have present : key ∈ fields.map Prod.fst := by
    by_contra fresh
    rw [lookup_eq_none_of_not_mem fresh] at there
    cases there
  rw [putField, if_pos (any_key_eq_true present)]
  conv_rhs => rw [← List.map_id fields]
  refine List.map_congr_left fun e member => ?_
  by_cases same : e.1 = key
  · subst same
    rw [lookup_eq_some_of_mem distinct member] at there
    cases there
    rw [if_pos rfl]
    rfl
  · rw [if_neg same]
    rfl

/-! ### The order of fields -/

/-- Keys as a mapping lists them: every index comes after smaller indices only. -/
def Arranged (keys : List String) : Prop :=
  keys.Pairwise fun first later => ∀ index, arrayIndex? later = some index → precedesIndex index first = true

theorem precedesIndex_eq_true {index : Nat} {key : String} :
    precedesIndex index key = true ↔ ∃ other, arrayIndex? key = some other ∧ other ≤ index := by
  rw [precedesIndex]
  cases arrayIndex? key <;> simp

theorem arranged_of_named {keys : List String} (named : ∀ key ∈ keys, arrayIndex? key = none) : Arranged keys := by
  refine List.pairwise_of_forall_mem_list fun first _ later member index spelled => ?_
  rw [named later member] at spelled
  cases spelled

/-- From a field that does not go before an index, on come names and larger indices only. -/
theorem index_lt_of_not_precedes {key : String} {keys : List String} (arranged : Arranged (key :: keys)) {index : Nat}
    (stops : precedesIndex index key = false) : ∀ later ∈ key :: keys, ∀ other, arrayIndex? later = some other → index < other := by
  have larger : ¬ ∃ least, arrayIndex? key = some least ∧ least ≤ index := by
    rw [← precedesIndex_eq_true, stops]
    exact Bool.false_ne_true
  rw [Arranged, List.pairwise_cons] at arranged
  intro later member other last
  by_contra less
  rcases List.mem_cons.mp member with rfl | behind
  · exact larger ⟨other, last, by omega⟩
  · obtain ⟨least, begins, atMost⟩ := precedesIndex_eq_true.mp (arranged.1 later behind other last)
    exact larger ⟨least, begins, by omega⟩

/-- A new field keeps the order: it goes before the larger indices and the names. -/
theorem arranged_putField {value : α} (arranged : Arranged (fields.map Prod.fst)) :
    Arranged ((putField key value fields).map Prod.fst) := by
  by_cases present : key ∈ fields.map Prod.fst
  · rw [keys_putField present]
    exact arranged
  · rw [putField, any_key_eq_false present]
    simp only [Bool.false_eq_true, if_false]
    split
    · rename_i named
      rw [List.map_append, Arranged, List.pairwise_append]
      refine ⟨arranged, List.pairwise_singleton _ _, ?_⟩
      rintro first _ later last index spelled
      rw [List.map_singleton, List.mem_singleton] at last
      rw [last, named] at spelled
      cases spelled
    · rename_i index spelled
      have head := List.head?_dropWhile_not (fun e => precedesIndex index e.1) fields
      have smaller : ∀ e ∈ fields.takeWhile fun e => precedesIndex index e.1, precedesIndex index e.1 = true :=
        fun e member => List.all_eq_true.mp List.all_takeWhile e member
      rw [← List.takeWhile_append_dropWhile (p := fun e => precedesIndex index e.1) (l := fields), List.map_append, Arranged,
        List.pairwise_append] at arranged
      obtain ⟨front, back, across⟩ := arranged
      rw [List.map_append, List.map_cons, Arranged, List.pairwise_append, List.pairwise_cons]
      refine ⟨front, ⟨fun later member other last => ?_, back⟩, fun first earlier later member => ?_⟩
      · rw [precedesIndex_eq_true]
        refine ⟨index, spelled, ?_⟩
        cases rest : fields.dropWhile fun e => precedesIndex index e.1 with
        | nil =>
          rw [rest] at member
          cases member
        | cons e more =>
          rw [rest] at head back member
          exact (index_lt_of_not_precedes back (by simpa using head) later member other last).le
      · rcases List.mem_cons.mp member with rfl | behind
        · intro other same
          rw [spelled] at same
          cases same
          obtain ⟨e, member, rfl⟩ := List.mem_map.mp earlier
          exact smaller e member
        · exact across first earlier later behind

theorem arranged_arrangeFields (entries : List (String × α)) : Arranged ((arrangeFields entries).map Prod.fst) := by
  have kept : ∀ before : List (String × α), Arranged (before.map Prod.fst) →
      Arranged ((entries.foldl (fun fields e => putField e.1 e.2 fields) before).map Prod.fst) := by
    induction entries with
    | nil => exact fun before arranged => arranged
    | cons e rest ih => exact fun before arranged => ih _ (arranged_putField arranged)
  exact kept [] List.Pairwise.nil

theorem nodup_arrangeFields (entries : List (String × α)) : ((arrangeFields entries).map Prod.fst).Nodup := by
  have kept : ∀ before : List (String × α), (before.map Prod.fst).Nodup →
      ((entries.foldl (fun fields e => putField e.1 e.2 fields) before).map Prod.fst).Nodup := by
    induction entries with
    | nil => exact fun before distinct => distinct
    | cons e rest ih => exact fun before distinct => ih _ (nodup_keys_putField distinct)
  exact kept [] List.nodup_nil

theorem mem_keys_arrangeFields {entries : List (String × α)} (member : key ∈ (arrangeFields entries).map Prod.fst) :
    key ∈ entries.map Prod.fst := by
  have kept : ∀ before : List (String × α),
      key ∈ (entries.foldl (fun fields e => putField e.1 e.2 fields) before).map Prod.fst →
        key ∈ before.map Prod.fst ∨ key ∈ entries.map Prod.fst := by
    clear member
    induction entries with
    | nil => exact fun before member => .inl member
    | cons e rest ih =>
      intro before member
      rw [List.map_cons, List.mem_cons]
      rcases ih _ member with earlier | later
      · rcases mem_keys_putField earlier with new | old
        · exact .inr (.inl new)
        · exact .inl old
      · exact .inr (.inr later)
  exact (kept [] member).resolve_left List.not_mem_nil

/-- Fields that are in order already stay as they are. -/
theorem arrangeFields_arranged {entries : List (String × α)} (arranged : Arranged (entries.map Prod.fst))
    (distinct : (entries.map Prod.fst).Nodup) : arrangeFields entries = entries := by
  have kept : ∀ before : List (String × α), Arranged ((before ++ entries).map Prod.fst) →
      ((before ++ entries).map Prod.fst).Nodup →
      entries.foldl (fun fields e => putField e.1 e.2 fields) before = before ++ entries := by
    clear arranged distinct
    induction entries with
    | nil => intro before _ _; rw [List.foldl_nil, List.append_nil]
    | cons e rest ih =>
      intro before arranged distinct
      have fresh : e.1 ∉ before.map Prod.fst := by
        rw [List.map_append, List.nodup_append] at distinct
        exact fun earlier => distinct.2.2 _ earlier e.1 List.mem_cons_self rfl
      have last : putField e.1 e.2 before = before ++ [e] := by
        cases spelled : arrayIndex? e.1 with
        | none => exact putField_fresh fresh spelled e.2
        | some index =>
          have smaller : ∀ first ∈ before, precedesIndex index first.1 = true := by
            rw [List.map_append, Arranged, List.pairwise_append] at arranged
            exact fun first member => arranged.2.2 _ (List.mem_map_of_mem member) e.1 List.mem_cons_self index spelled
          rw [putField, any_key_eq_false fresh, spelled]
          simp only [Bool.false_eq_true, if_false]
          rw [List.takeWhile_eq_self_iff.mpr smaller, List.dropWhile_eq_nil_iff.mpr smaller]
      rw [List.foldl_cons, last]
      rw [List.append_cons before e rest] at arranged distinct ⊢
      exact ih _ arranged distinct
  exact kept [] arranged distinct

/-- Fields of different names that are no indices stay in their order. -/
theorem arrangeFields_named {entries : List (String × α)} (named : ∀ e ∈ entries, arrayIndex? e.1 = none)
    (distinct : (entries.map Prod.fst).Nodup) : arrangeFields entries = entries := by
  refine arrangeFields_arranged (arranged_of_named fun key member => ?_) distinct
  obtain ⟨e, among, rfl⟩ := List.mem_map.mp member
  exact named e among

end WorkflowCompiler
