import WorkflowCompiler.Graph.Basic

/-!
# Nodes not visited yet

A walk over a graph ends because the nodes that it has not seen become fewer.
`unvisited` counts them; entering a node for the first time makes the count
smaller (`unvisited_cons_lt`).
-/
namespace WorkflowCompiler.Graph

/-- How many nodes have a name that is not among those seen. -/
def unvisited (g : Graph) (seen : List String) : Nat := g.nodes.countP fun n => n.name ∉ seen

theorem countP_lt_countP {α : Type} {p q : α → Bool} {l : List α} (sub : ∀ x ∈ l, p x → q x)
    {a : α} (mem : a ∈ l) (old : q a) (gone : p a = false) : l.countP p < l.countP q := by
  induction l with
  | nil => cases mem
  | cons b l ih =>
    rcases List.mem_cons.1 mem with e | mem
    · subst e
      have le : l.countP p ≤ l.countP q :=
        List.countP_mono_left fun x hx => sub x (List.mem_cons_of_mem a hx)
      rw [List.countP_cons_of_pos old, List.countP_cons_of_neg (by simp [gone])]
      omega
    · have lt := ih (fun x hx => sub x (List.mem_cons_of_mem b hx)) mem
      have head := sub b (List.mem_cons_self ..)
      by_cases hp : p b
      · rw [List.countP_cons_of_pos hp, List.countP_cons_of_pos (head hp)]
        omega
      · rw [List.countP_cons_of_neg hp]
        by_cases hq : q b
        · rw [List.countP_cons_of_pos hq]
          omega
        · rw [List.countP_cons_of_neg hq]
          exact lt

/-- Entering a node that was not seen leaves fewer nodes. -/
theorem unvisited_cons_lt {g : Graph} {seen : List String} {n : Node} (mem : n ∈ g.nodes)
    (fresh : n.name ∉ seen) : g.unvisited (n.name :: seen) < g.unvisited seen := by
  unfold unvisited
  refine countP_lt_countP (fun x _ hx => ?_) mem (by simpa using fresh) (by simp)
  simp only [List.mem_cons, not_or, decide_eq_true_eq] at hx ⊢
  exact hx.2

/-- Only which names were seen counts. -/
theorem unvisited_congr {g : Graph} {a b : List String} (same : ∀ x, x ∈ a ↔ x ∈ b) :
    g.unvisited a = g.unvisited b := by
  unfold unvisited
  congr 1
  funext n
  simp only [same]

end WorkflowCompiler.Graph
