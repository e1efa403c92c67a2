/-!
Progress of a computation that carries a state: how much of a measure every success uses up.
-/

namespace SyscallStream

/-- A computation that, whenever it succeeds, lowers the measure by `amount` at least. -/
def Takes {ε σ α : Type} (measure : σ → Nat) (amount : Nat) (step : EStateM ε σ α) : Prop :=
  ∀ s a t, step s = .ok a t → measure t + amount ≤ measure s

namespace Takes

variable {ε σ α β : Type} {measure : σ → Nat} {m n : Nat}

theorem pure (a : α) : Takes measure 0 (Pure.pure a : EStateM ε σ α) := by
  intro s b t run
  cases run
  exact Nat.le_refl _

theorem get : Takes measure 0 (MonadState.get : EStateM ε σ σ) := by
  intro s b t run
  cases run
  exact Nat.le_refl _

theorem throw (error : ε) :
    Takes measure n (MonadExcept.throw error : EStateM ε σ α) := by
  intro s b t run
  cases run

theorem bind {step : EStateM ε σ α} {next : α → EStateM ε σ β}
    (first : Takes measure m step) (second : ∀ a, Takes measure n (next a)) :
    Takes measure (m + n) (step >>= next) := by
  intro s b t run
  change EStateM.bind step next s = _ at run
  unfold EStateM.bind at run
  split at run
  · rename_i a u ran
    have h := first s a u ran
    have k := second a u b t run
    omega
  · cases run

theorem map {step : EStateM ε σ α} (f : α → β) (takes : Takes measure m step) :
    Takes measure m (f <$> step) := by
  intro s b t run
  change EStateM.map f step s = _ at run
  unfold EStateM.map at run
  split at run
  · rename_i ran
    cases run
    exact takes _ _ _ ran
  · cases run

theorem weaken {step : EStateM ε σ α} (takes : Takes measure m step) (le : n ≤ m) :
    Takes measure n step := by
  intro s a t run
  have h := takes s a t run
  omega

end Takes

end SyscallStream
