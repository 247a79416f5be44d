/-!
# Computations on a state that may fail

The operations of `EStateM` applied to a state. A failure keeps the state it happened in.
-/

namespace EState

variable {ε σ α β : Type _}

/-- A sequence of computations. -/
@[simp] theorem bind_apply (x : EStateM ε σ α) (f : α → EStateM ε σ β) (s : σ) :
    (x >>= f) s = match x s with
      | .ok a s => f a s
      | .error e s => .error e s := by
  simp only [bind, EStateM.bind]
  cases x s <;> rfl

/-- A result. -/
@[simp] theorem pure_apply (a : α) (s : σ) : (pure a : EStateM ε σ α) s = .ok a s := rfl

/-- The state. -/
@[simp] theorem get_apply (s : σ) : (get : EStateM ε σ σ) s = .ok s s := rfl

/-- A change of the state. -/
@[simp] theorem modify_apply (f : σ → σ) (s : σ) :
    (modify f : EStateM ε σ PUnit) s = .ok ⟨⟩ (f s) := rfl

/-- An error. -/
@[simp] theorem throw_apply (e : ε) (s : σ) : (throw e : EStateM ε σ α) s = .error e s := rfl

/-- A condition on the state decides between two computations. -/
@[simp] theorem ite_apply {p : Prop} [Decidable p] (x y : EStateM ε σ α) (s : σ) :
    (if p then x else y) s = if p then x s else y s := by
  split <;> rfl

end EState
