/-!
# How runs end

A run with a state ends with a value or with a failure, and leaves a state
behind in both cases. What comes next is run only after a value.
-/

namespace LuaBackend

variable {ε σ α β : Type} {x : EStateM ε σ α} {f : α → EStateM ε σ β} {s s' : σ} {a : α} {b : β}
variable {failure : ε}

/-- The state that a run leaves behind, whether it succeeds or not. -/
def left : EStateM.Result ε σ α → σ
  | .ok _ s | .error _ s => s

/-- What a run ends with, apart from the state. -/
def outcome : EStateM.Result ε σ α → Except ε α
  | .ok a _ => .ok a
  | .error failure _ => .error failure

/-- After a value, what comes next goes on from the state that is left. -/
theorem run_bind_ok (h : x s = .ok a s') : (x >>= f) s = f a s' := by
  change EStateM.bind x f s = _
  rw [EStateM.bind, h]

/-- After a failure nothing more is run. -/
theorem run_bind_error (h : x s = .error failure s') : (x >>= f) s = .error failure s' := by
  change EStateM.bind x f s = _
  rw [EStateM.bind, h]

/-- A value of two steps comes from a value of the first one. -/
theorem exists_of_run_bind (h : (x >>= f) s = .ok b s') :
    ∃ a s₁, x s = .ok a s₁ ∧ f a s₁ = .ok b s' := by
  cases hx : x s with
  | ok a s₁ => exact ⟨a, s₁, rfl, (run_bind_ok hx).symm.trans h⟩
  | error => exact nomatch (run_bind_error hx).symm.trans h

end LuaBackend
