/-!
Entries of arrays, where there is a default: after one is added (`getD_push`), put
(`getD_setIfInBounds`) or changed (`getD_modify`). Counting changes one entry at a time
(`getD_foldl_modify`).
-/
namespace WorkflowCompiler

variable {α : Type}

theorem getD_push (entries : Array α) (last default : α) (i : Nat) :
    (entries.push last).getD i default = if i = entries.size then last else entries.getD i default := by
  rw [Array.getD_eq_getD_getElem?, Array.getElem?_push, Array.getD_eq_getD_getElem?]
  split
  · rfl
  · rfl

theorem getD_setIfInBounds {entries : Array α} {place : Nat} (inside : place < entries.size) (entry default : α) (i : Nat) :
    (entries.setIfInBounds place entry).getD i default = if i = place then entry else entries.getD i default := by
  rw [Array.getD_eq_getD_getElem?, Array.getElem?_setIfInBounds, if_pos inside, Array.getD_eq_getD_getElem?]
  by_cases here : place = i
  · rw [if_pos here, if_pos here.symm, Option.getD_some]
  · rw [if_neg here, if_neg (Ne.symm here)]

theorem getD_modify {entries : Array α} {place : Nat} (inside : place < entries.size) (f : α → α) (default : α) (i : Nat) :
    (entries.modify place f).getD i default = if i = place then f (entries.getD i default) else entries.getD i default := by
  rw [Array.getD_eq_getD_getElem?, Array.getElem?_modify, Array.getD_eq_getD_getElem?]
  by_cases here : place = i
  · subst here
    rw [if_pos rfl, if_pos rfl, Array.getElem?_eq_getElem inside]
    rfl
  · rw [if_neg here, if_neg (Ne.symm here)]

section
variable {counts : Array Nat} {counted : List Nat}

theorem size_foldl_modify (counts : Array Nat) (counted : List Nat) :
    (counted.foldl (fun (a : Array Nat) i => a.modify i (· + 1)) counts).size = counts.size := by
  induction counted generalizing counts with
  | nil => rfl
  | cons i counted ih => rw [List.foldl_cons, ih, Array.size_modify]

theorem getD_foldl_modify (inside : ∀ i ∈ counted, i < counts.size) (i : Nat) :
    (counted.foldl (fun (a : Array Nat) i => a.modify i (· + 1)) counts).getD i 0 = counts.getD i 0 + counted.count i := by
  induction counted generalizing counts with
  | nil => rfl
  | cons first counted ih =>
    obtain ⟨here, others⟩ := List.forall_mem_cons.mp inside
    have kept : ∀ i ∈ counted, i < (counts.modify first (· + 1)).size := by
      rw [Array.size_modify]
      exact others
    rw [List.foldl_cons, ih kept, getD_modify here, List.count_cons]
    by_cases same : i = first
    · subst same
      simp [Nat.add_comm, Nat.add_assoc]
    · simp [same, Ne.symm same]

end

end WorkflowCompiler
