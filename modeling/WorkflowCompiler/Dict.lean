/-!
# Maps that keep the order of insertion

A map from texts with one entry for each key. A new key goes to the end; a key
that is there already keeps its place and takes the new value.
-/
namespace WorkflowCompiler
universe u

/-- Writes an entry into a list of entries: in place when the key occurs, else at the end. -/
def putEntry {α : Type u} (key : String) (value : α) : List (String × α) → List (String × α)
  | [] => [(key, value)]
  | (k, v) :: rest => if k = key then (key, value) :: rest else (k, v) :: putEntry key value rest

theorem mem_keys_putEntry {α : Type u} {key : String} {value : α} {es : List (String × α)} {k : String} :
    k ∈ (putEntry key value es).map Prod.fst ↔ k = key ∨ k ∈ es.map Prod.fst := by
  induction es with
  | nil => simp [putEntry]
  | cons e rest ih =>
    obtain ⟨k', v'⟩ := e
    by_cases h : k' = key
    · subst h; simp [putEntry]
    · simp only [putEntry, h, if_false, List.map_cons, List.mem_cons, ih]
      grind

theorem nodup_keys_putEntry {α : Type u} {key : String} {value : α} {es : List (String × α)}
    (distinct : (es.map Prod.fst).Nodup) : ((putEntry key value es).map Prod.fst).Nodup := by
  induction es with
  | nil => simp [putEntry]
  | cons e rest ih =>
    obtain ⟨k', v'⟩ := e
    rw [List.map_cons, List.nodup_cons] at distinct
    by_cases h : k' = key
    · subst h; simpa [putEntry] using distinct
    · simp only [putEntry, h, if_false, List.map_cons, List.nodup_cons]
      refine ⟨fun hm => ?_, ih distinct.2⟩
      rcases mem_keys_putEntry.1 hm with hk | hk
      · exact h hk
      · exact distinct.1 hk

/-- A map from texts in order of insertion. -/
structure Dict (α : Type u) where
  entries : List (String × α)
  /-- No key occurs twice. -/
  distinct : (entries.map Prod.fst).Nodup

namespace Dict
variable {α : Type u}

@[ext] theorem ext {a b : Dict α} (h : a.entries = b.entries) : a = b := by
  cases a; cases b; cases h; rfl

instance [DecidableEq α] : DecidableEq (Dict α) := fun a b =>
  if h : a.entries = b.entries then isTrue (ext h) else isFalse fun e => h (e ▸ rfl)

/-- The map without entries. -/
def empty : Dict α := ⟨[], List.nodup_nil⟩

instance : Inhabited (Dict α) := ⟨empty⟩

def keys (d : Dict α) : List String := d.entries.map Prod.fst

/-- The value of a key, if it has one. -/
def get? (d : Dict α) (key : String) : Option α := d.entries.lookup key

def contains (d : Dict α) (key : String) : Bool := (d.get? key).isSome

def put (d : Dict α) (key : String) (value : α) : Dict α :=
  ⟨putEntry key value d.entries, nodup_keys_putEntry d.distinct⟩

/-- Takes a key out. -/
def erase (d : Dict α) (key : String) : Dict α :=
  ⟨d.entries.filter fun e => e.1 ≠ key,
    List.Nodup.sublist (List.Sublist.map Prod.fst List.filter_sublist) d.distinct⟩

/-- Writes a list of entries into a map, one after the other. -/
def putAll (d : Dict α) (es : List (String × α)) : Dict α := es.foldl (fun d e => d.put e.1 e.2) d

/-- The map of a list of entries; of a repeated key the last value counts. -/
def ofList (es : List (String × α)) : Dict α := empty.putAll es

/-- Writes every entry of `upper` over `lower`. -/
def overlay (lower upper : Dict α) : Dict α := lower.putAll upper.entries

@[simp] theorem entries_put (d : Dict α) (key : String) (value : α) :
    (d.put key value).entries = putEntry key value d.entries := rfl

theorem lookup_putEntry (key k : String) (value : α) (es : List (String × α)) :
    (putEntry key value es).lookup k = if k = key then some value else es.lookup k := by
  induction es with
  | nil =>
    by_cases h : k = key
    · simp [putEntry, h]
    · have : (k == key) = false := by simpa using h
      simp [putEntry, List.lookup_cons, h, this]
  | cons e rest ih =>
    obtain ⟨k', v'⟩ := e
    by_cases h : k' = key
    · subst h
      by_cases hk : k = k'
      · simp [putEntry, hk]
      · have : (k == k') = false := by simpa using hk
        simp [putEntry, List.lookup_cons, hk, this]
    · by_cases hk : k = k'
      · subst hk
        simp [putEntry, h]
      · have : (k == k') = false := by simpa using hk
        simp [putEntry, h, List.lookup_cons, this, ih]

/-- A key that was written has the value written; every other key keeps its own. -/
theorem get?_put (d : Dict α) (key k : String) (value : α) :
    (d.put key value).get? k = if k = key then some value else d.get? k :=
  lookup_putEntry key k value d.entries

end Dict
end WorkflowCompiler
