import WorkflowCompiler.Fault

/-!
# Attempts

A step that changes a state and may fail. What it changed before it failed stays
changed, so an attempt has a state in both cases.
-/
namespace WorkflowCompiler

/-- The state after a step, and what the step gave or why it failed. -/
structure Attempt (σ α : Type) where
  state : σ
  result : Except Fault α

namespace Attempt
variable {σ α β : Type}

/-- A step that changes nothing. -/
def ofExcept (state : σ) (result : Except Fault α) : Attempt σ α := ⟨state, result⟩

def succeed (state : σ) (value : α) : Attempt σ α := ⟨state, .ok value⟩

/-- A step that fails. -/
def fail (state : σ) (fault : Fault) : Attempt σ α := ⟨state, .error fault⟩

/-- Another step after a step that succeeded. -/
def andThen (a : Attempt σ α) (next : σ → α → Attempt σ β) : Attempt σ β :=
  match a.result with
  | .ok value => next a.state value
  | .error fault => ⟨a.state, .error fault⟩

@[simp] theorem andThen_succeed (state : σ) (value : α) (next : σ → α → Attempt σ β) :
    (succeed state value).andThen next = next state value := rfl

end Attempt
end WorkflowCompiler
