import WorkflowCompiler.Dict
import Mathlib.Data.List.Induction
import Mathlib.Data.List.Nodup

/-!
Writing one map over another. The upper one wins key by key (`get?_overlay`), its
new keys come after the keys of the lower one (`keys_overlay`); in a pile of maps
every key has its highest value, and keys stand in the order in which they first
appear from the lowest map on (`get?_stack`, `keys_stack`). Piles may be joined before
or after they are written (`overlay_assoc`, `stack_stack`).
-/
namespace WorkflowCompiler
variable {α : Type}

theorem putEntry_fresh {key : String} {value : α} {es : List (String × α)} (fresh : key ∉ es.map Prod.fst) :
    putEntry key value es = es ++ [(key, value)] := by
  induction es with
  | nil => rfl
  | cons e rest ih =>
    rw [List.map_cons, List.mem_cons, not_or] at fresh
    rw [putEntry, if_neg fun same => fresh.1 same.symm, ih fresh.2, List.cons_append]

theorem keys_putEntry (key : String) (value : α) (es : List (String × α)) :
    (putEntry key value es).map Prod.fst =
      if key ∈ es.map Prod.fst then es.map Prod.fst else es.map Prod.fst ++ [key] := by
  induction es with
  | nil => rfl
  | cons e rest ih =>
    obtain ⟨k, v⟩ := e
    by_cases same : k = key
    · subst same
      simp [putEntry]
    · have other : ¬ key = k := fun equal => same equal.symm
      simp only [putEntry, same, if_false, List.map_cons, ih, List.mem_cons, other, false_or]
      split <;> rfl

theorem mem_putEntry {key : String} {value : α} {es : List (String × α)} {e : String × α}
    (member : e ∈ putEntry key value es) : e = (key, value) ∨ e ∈ es := by
  induction es with
  | nil => exact .inl (List.mem_singleton.mp member)
  | cons f rest ih =>
    obtain ⟨k, v⟩ := f
    rw [putEntry] at member
    split at member
    · rcases List.mem_cons.mp member with rfl | later
      · exact .inl rfl
      · exact .inr (List.mem_cons_of_mem _ later)
    · rcases List.mem_cons.mp member with rfl | later
      · exact .inr List.mem_cons_self
      · exact (ih later).imp_right (List.mem_cons_of_mem _)

namespace Dict

@[simp] theorem keys_empty : (empty : Dict α).keys = [] := rfl

@[simp] theorem get?_empty (key : String) : (empty : Dict α).get? key = none := rfl

theorem nodup_keys (d : Dict α) : d.keys.Nodup := d.distinct

theorem keys_put (d : Dict α) (key : String) (value : α) :
    (d.put key value).keys = if key ∈ d.keys then d.keys else d.keys ++ [key] :=
  keys_putEntry key value d.entries

theorem putAll_cons (d : Dict α) (e : String × α) (es : List (String × α)) :
    d.putAll (e :: es) = (d.put e.1 e.2).putAll es := rfl

/-- Of entries with different keys, each is found where it was written. -/
theorem get?_putAll (d : Dict α) {es : List (String × α)} (distinct : (es.map Prod.fst).Nodup) (key : String) :
    (d.putAll es).get? key = (es.lookup key).or (d.get? key) := by
  induction es generalizing d with
  | nil => rfl
  | cons e rest ih =>
    obtain ⟨k, v⟩ := e
    rw [List.map_cons, List.nodup_cons] at distinct
    rw [putAll_cons, ih _ distinct.2, get?_put, List.lookup_cons]
    by_cases same : key = k
    · subst same
      have last : rest.lookup key = none := by
        rw [List.lookup_eq_none_iff]
        intro e member
        rw [bne_iff_ne]
        intro same
        exact distinct.1 (List.mem_map.mpr ⟨e, member, same.symm⟩)
      simp [last]
    · have other : (key == k) = false := by simpa using same
      rw [if_neg same, other]

/-- Of entries with one key, the last one is found. -/
theorem get?_putAll_last (d : Dict α) (es : List (String × α)) (key : String) :
    (d.putAll es).get? key = (es.reverse.lookup key).or (d.get? key) := by
  induction es generalizing d with
  | nil => rfl
  | cons e rest ih =>
    rw [putAll_cons, ih, get?_put, List.reverse_cons, List.lookup_append, Option.or_assoc, List.lookup_cons]
    by_cases same : key = e.1
    · rw [if_pos same, same, beq_self_eq_true]
      rfl
    · rw [if_neg same, beq_eq_false_iff_ne.mpr same]
      rfl

theorem keys_putAll (d : Dict α) {es : List (String × α)} (distinct : (es.map Prod.fst).Nodup) :
    (d.putAll es).keys = d.keys ++ (es.map Prod.fst).filter (· ∉ d.keys) := by
  induction es generalizing d with
  | nil => rw [List.map_nil, List.filter_nil, List.append_nil]; rfl
  | cons e rest ih =>
    rw [List.map_cons, List.nodup_cons] at distinct
    rw [putAll_cons, ih _ distinct.2, keys_put, List.map_cons]
    by_cases old : e.1 ∈ d.keys
    · rw [if_pos old, List.filter_cons_of_neg (by simpa using old)]
    · rw [if_neg old, List.filter_cons_of_pos (by simpa using old), List.append_assoc, List.singleton_append]
      congr 2
      refine List.filter_congr fun k member => ?_
      have other : k ≠ e.1 := by
        rintro rfl
        exact distinct.1 member
      simp [other]

theorem get?_eq_none_iff {d : Dict α} {key : String} : d.get? key = none ↔ key ∉ d.keys := by
  rw [get?, List.lookup_eq_none_iff, keys, List.mem_map]
  constructor
  · rintro absent ⟨e, member, rfl⟩
    exact bne_iff_ne.mp (absent e member) rfl
  · intro absent e member
    exact bne_iff_ne.mpr fun same => absent ⟨e, member, same.symm⟩

theorem mem_keys_iff {d : Dict α} {key : String} : key ∈ d.keys ↔ d.contains key = true := by
  rw [contains, Option.isSome_iff_ne_none, ne_eq, get?_eq_none_iff, not_not]

theorem mem_putAll {d : Dict α} {es : List (String × α)} {e : String × α} (member : e ∈ (d.putAll es).entries) :
    e ∈ es ∨ e ∈ d.entries := by
  induction es generalizing d with
  | nil => exact .inr member
  | cons f rest ih =>
    rcases ih member with later | earlier
    · exact .inl (List.mem_cons_of_mem _ later)
    · rcases mem_putEntry earlier with rfl | old
      · exact .inl List.mem_cons_self
      · exact .inr old

theorem mem_keys_putAll {d : Dict α} {es : List (String × α)} {key : String} :
    key ∈ (d.putAll es).keys ↔ key ∈ d.keys ∨ key ∈ es.map Prod.fst := by
  induction es generalizing d with
  | nil => simp [putAll]
  | cons e rest ih =>
    rw [putAll_cons, ih, List.map_cons, List.mem_cons, keys, entries_put, mem_keys_putEntry, or_assoc, or_left_comm]
    rfl

/-- The upper map decides wherever it has a value. -/
theorem get?_overlay (lower upper : Dict α) (key : String) :
    (lower.overlay upper).get? key = (upper.get? key).or (lower.get? key) :=
  get?_putAll lower upper.distinct key

theorem keys_overlay (lower upper : Dict α) : (lower.overlay upper).keys = lower.keys ++ upper.keys.filter (· ∉ lower.keys) :=
  keys_putAll lower upper.distinct

theorem ofList_entries (d : Dict α) : ofList d.entries = d := by
  have written : ∀ (lower : Dict α) (es : List (String × α)), ((lower.entries ++ es).map Prod.fst).Nodup →
      (lower.putAll es).entries = lower.entries ++ es := by
    intro lower es
    induction es generalizing lower with
    | nil => intro _; rw [putAll, List.foldl_nil, List.append_nil]
    | cons e rest ih =>
      intro distinct
      have fresh : e.1 ∉ lower.entries.map Prod.fst := by
        rw [List.map_append, List.nodup_append] at distinct
        exact fun earlier => distinct.2.2 _ earlier e.1 List.mem_cons_self rfl
      have entries : (lower.put e.1 e.2).entries = lower.entries ++ [e] := putEntry_fresh fresh
      rw [List.append_cons, ← entries] at distinct ⊢
      exact ih _ distinct
  exact ext (written empty d.entries d.distinct)

/-! ### Piles of maps -/

/-- Maps written one over the other, the lowest first. -/
def stack (layers : List (Dict α)) : Dict α := layers.foldl overlay empty

theorem stack_append (layers : List (Dict α)) (top : Dict α) : stack (layers ++ [top]) = (stack layers).overlay top := by
  rw [stack, List.foldl_append]
  rfl

/-- The value of a key in the highest map that has one. -/
def highest? (layers : List (Dict α)) (key : String) : Option α := layers.reverse.findSome? fun d => d.get? key

theorem get?_stack (layers : List (Dict α)) (key : String) : (stack layers).get? key = highest? layers key := by
  induction layers using List.reverseRecOn with
  | nil => rfl
  | append_singleton layers top ih =>
    rw [stack_append, get?_overlay, ih, highest?, highest?, List.reverse_append, List.reverse_singleton, List.singleton_append,
      List.findSome?_cons]
    cases top.get? key <;> rfl

theorem eraseDups_nodup {keys : List String} (distinct : keys.Nodup) : keys.eraseDups = keys := by
  induction keys with
  | nil => rfl
  | cons k rest ih =>
    rw [List.nodup_cons] at distinct
    rw [List.eraseDups_cons, List.filter_eq_self.mpr, ih distinct.2]
    intro other member
    have different : other ≠ k := fun same => distinct.1 (same ▸ member)
    simpa using different

/-- Keys stand where they first appear from the lowest map on. -/
theorem keys_stack (layers : List (Dict α)) : (stack layers).keys = (layers.flatMap keys).eraseDups := by
  induction layers using List.reverseRecOn with
  | nil => rfl
  | append_singleton layers top ih =>
    have added : (top.keys.removeAll (layers.flatMap keys)).eraseDups = top.keys.filter (· ∉ (layers.flatMap keys).eraseDups) := by
      rw [List.removeAll, eraseDups_nodup (top.nodup_keys.filter _)]
      refine List.filter_congr fun key _ => ?_
      rw [List.elem_eq_mem, ← decide_not]
      exact decide_eq_decide.mpr (not_congr List.mem_eraseDups.symm)
    rw [stack_append, keys_overlay, ih, List.flatMap_append, List.flatMap_singleton, List.eraseDups_append, added]

theorem eraseDups_append_singleton (keys : List String) (key : String) :
    (keys ++ [key]).eraseDups = if key ∈ keys then keys.eraseDups else keys.eraseDups ++ [key] := by
  rw [List.eraseDups_append, List.removeAll]
  by_cases old : key ∈ keys
  · rw [if_pos old, List.filter_cons_of_neg (by simpa using old), List.filter_nil, List.eraseDups_nil, List.append_nil]
  · rw [if_neg old, List.filter_cons_of_pos (by simpa using old), List.filter_nil]
    rfl

theorem nodup_eraseDups (keys : List String) : keys.eraseDups.Nodup := by
  induction keys using List.reverseRecOn with
  | nil => exact List.nodup_nil
  | append_singleton keys key ih =>
    rw [eraseDups_append_singleton]
    split
    · exact ih
    · rename_i fresh
      exact List.nodup_append.mpr ⟨ih, List.nodup_singleton key, fun k member other last same => by simp_all⟩

theorem eraseDups_filter (p : String → Bool) (keys : List String) : (keys.filter p).eraseDups = keys.eraseDups.filter p := by
  induction keys using List.reverseRecOn with
  | nil => rfl
  | append_singleton keys key ih =>
    rw [List.filter_append, eraseDups_append_singleton]
    by_cases kept : p key = true
    · rw [List.filter_cons_of_pos kept, List.filter_nil, eraseDups_append_singleton, ih]
      by_cases old : key ∈ keys
      · rw [if_pos old, if_pos (List.mem_filter.mpr ⟨old, kept⟩)]
      · rw [if_neg old, if_neg fun member => old (List.mem_of_mem_filter member), List.filter_append, List.filter_cons_of_pos kept,
          List.filter_nil]
    · rw [List.filter_cons_of_neg kept, List.filter_nil, List.append_nil, ih]
      split
      · rfl
      · rw [List.filter_append, List.filter_cons_of_neg kept, List.filter_nil, List.append_nil]

theorem filterMap_lookup {es : List (String × α)} (distinct : (es.map Prod.fst).Nodup) :
    (es.map Prod.fst).filterMap (fun k => (es.lookup k).map (Prod.mk k)) = es := by
  induction es with
  | nil => rfl
  | cons e rest ih =>
    obtain ⟨key, value⟩ := e
    rw [List.map_cons, List.nodup_cons] at distinct
    have later : (rest.map Prod.fst).filterMap (fun k => (((key, value) :: rest).lookup k).map (Prod.mk k)) =
        (rest.map Prod.fst).filterMap fun k => (rest.lookup k).map (Prod.mk k) := by
      refine List.filterMap_congr fun k member => ?_
      have other : (k == key) = false := beq_eq_false_iff_ne.mpr fun same => distinct.1 (same ▸ member)
      rw [List.lookup_cons, other]
    rw [List.map_cons, List.filterMap_cons_some (b := (key, value)) (by simp), later, ih distinct.2]

/-- A map is its keys in order and the value of each. -/
theorem ext_get? {a b : Dict α} (keys : a.keys = b.keys) (values : ∀ key, a.get? key = b.get? key) : a = b := by
  refine ext ?_
  rw [← filterMap_lookup a.distinct, ← filterMap_lookup b.distinct]
  have same : a.entries.map Prod.fst = b.entries.map Prod.fst := keys
  rw [same]
  exact List.filterMap_congr fun key _ => congrArg (Option.map _) (values key)

theorem overlay_assoc (lower middle upper : Dict α) :
    (lower.overlay middle).overlay upper = lower.overlay (middle.overlay upper) := by
  refine ext_get? ?_ fun key => ?_
  · rw [keys_overlay, keys_overlay, keys_overlay, keys_overlay, List.filter_append, List.filter_filter, List.append_assoc]
    congr 2
    refine List.filter_congr fun key _ => ?_
    by_cases first : key ∈ lower.keys <;> by_cases second : key ∈ middle.keys <;> simp [first, second]
  · rw [get?_overlay, get?_overlay, get?_overlay, get?_overlay, Option.or_assoc]

/-- A pile on another is the upper one written over the lower one. -/
theorem stack_stack (below above : List (Dict α)) : stack (below ++ above) = (stack below).overlay (stack above) := by
  induction above using List.reverseRecOn with
  | nil =>
    rw [List.append_nil]
    rfl
  | append_singleton above top ih => rw [← List.append_assoc, stack_append, ih, stack_append, overlay_assoc]

end Dict
end WorkflowCompiler
