/-!
Loops. A turn ends a loop with an outcome, or gives the state in which the next turn
begins. Where every turn that goes on makes a cost smaller, the loop ends before it
has taken more turns than the cost (`loop_ends`), with the outcome that any function
has which agrees with each turn. What every turn keeps still holds at the turn that
ends the loop (`exists_last_turn`), and two loops that take the same turns wherever it
holds have one outcome (`outcome_congr`).
-/
namespace WorkflowCompiler

variable {σ α : Type}

/-- The outcome of a loop, if it ends within so many turns. -/
def loop (turn : σ → α ⊕ σ) : Nat → σ → Option α
  | 0, _ => none
  | k + 1, s =>
    match turn s with
    | .inl outcome => some outcome
    | .inr next => loop turn k next

theorem loop_ends {turn : σ → α ⊕ σ} {outcome : σ → α} {cost : σ → Nat}
    (agrees : ∀ s, outcome s = (turn s).elim id outcome)
    (cheaper : ∀ s next, turn s = .inr next → cost next < cost s) {k : Nat} {s : σ} (enough : cost s < k) :
    loop turn k s = some (outcome s) := by
  induction k generalizing s with
  | zero => omega
  | succ k ih =>
    rw [loop, agrees s]
    cases took : turn s with
    | inl result => rfl
    | inr next =>
      have less := cheaper s next took
      exact ih (by omega)

/-- Turns that end a loop tell its outcome. -/
theorem outcome_of_loop {turn : σ → α ⊕ σ} {outcome : σ → α} (agrees : ∀ s, outcome s = (turn s).elim id outcome)
    {k : Nat} {s : σ} {a : α} (ended : loop turn k s = some a) : outcome s = a := by
  induction k generalizing s with
  | zero => cases ended
  | succ k ih =>
    rw [loop] at ended
    rw [agrees s]
    cases took : turn s with
    | inl result =>
      rw [took] at ended
      exact Option.some.inj ended
    | inr next =>
      rw [took] at ended
      exact ih ended

section
variable {turn other : σ → α ⊕ σ} {outcome outcome' : σ → α} {cost : σ → Nat} {inv : σ → Prop}

/-- The outcome is that of one last turn, from a state with everything that the turns before it have kept. -/
theorem exists_last_turn (agrees : ∀ s, outcome s = (turn s).elim id outcome)
    (cheaper : ∀ s next, turn s = .inr next → cost next < cost s)
    (kept : ∀ s next, inv s → turn s = .inr next → inv next) {s : σ} (start : inv s) :
    ∃ last, inv last ∧ turn last = .inl (outcome s) := by
  have here := agrees s
  cases took : turn s with
  | inl result =>
    rw [took] at here
    exact ⟨s, start, took.trans (congrArg Sum.inl here.symm)⟩
  | inr next =>
    rw [took] at here
    obtain ⟨last, holds, ends⟩ := exists_last_turn agrees cheaper kept (kept s next start took)
    exact ⟨last, holds, ends.trans (congrArg Sum.inl here.symm)⟩
termination_by cost s
decreasing_by exact cheaper s next took

/-- Loops may differ in states that they never come to. -/
theorem outcome_congr (agrees : ∀ s, outcome s = (turn s).elim id outcome)
    (agrees' : ∀ s, outcome' s = (other s).elim id outcome')
    (cheaper : ∀ s next, turn s = .inr next → cost next < cost s)
    (kept : ∀ s next, inv s → turn s = .inr next → inv next) (alike : ∀ s, inv s → turn s = other s) {s : σ}
    (start : inv s) : outcome s = outcome' s := by
  rw [agrees s, agrees' s, ← alike s start]
  cases took : turn s with
  | inl result => rfl
  | inr next => exact outcome_congr agrees agrees' cheaper kept alike (kept s next start took)
termination_by cost s
decreasing_by exact cheaper s next took

end

end WorkflowCompiler
