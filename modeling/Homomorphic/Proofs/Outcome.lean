import Homomorphic.Error
import Mathlib

namespace Homomorphic

variable {σ α β : Type}

theorem bind_eq_ok {x : Except Error α} {f : α → Except Error β} {b : β} :
    x >>= f = .ok b ↔ ∃ a, x = .ok a ∧ f a = .ok b := by
  constructor
  · intro h
    cases x with
    | error error => cases h
    | ok a => exact ⟨a, rfl, h⟩
  · rintro ⟨a, rfl, h⟩
    exact h

namespace Stateful

def outcome (x : ExceptT Error (StateM σ) α) (s : σ) : Except Error α × σ := x.run s

variable {x : ExceptT Error (StateM σ) α} {f : α → ExceptT Error (StateM σ) β} {b : β} {s s' : σ}

theorem outcome_bind_of_ok {a : α} (f : α → ExceptT Error (StateM σ) β)
    (h : outcome x s = (.ok a, s')) : outcome (x >>= f) s = outcome (f a) s' := by
  change ExceptT.bindCont f (outcome x s).1 (outcome x s).2 = _
  rw [h]
  rfl

theorem outcome_bind_of_error {error : Error} (f : α → ExceptT Error (StateM σ) β)
    (h : outcome x s = (.error error, s')) : outcome (x >>= f) s = (.error error, s') := by
  change ExceptT.bindCont f (outcome x s).1 (outcome x s).2 = _
  rw [h]
  rfl

theorem outcome_bind_eq_ok :
    outcome (x >>= f) s = (.ok b, s') ↔
      ∃ a s₁, outcome x s = (.ok a, s₁) ∧ outcome (f a) s₁ = (.ok b, s') := by
  constructor
  · intro h
    rcases hx : outcome x s with ⟨error | a, s₁⟩
    · rw [outcome_bind_of_error f hx] at h
      cases h
    · rw [outcome_bind_of_ok f hx] at h
      exact ⟨a, s₁, rfl, h⟩
  · rintro ⟨a, s₁, hx, hf⟩
    rw [outcome_bind_of_ok f hx, hf]

theorem outcome_lift (x : Except Error α) (s : σ) :
    outcome (liftM x : ExceptT Error (StateM σ) α) s = (x, s) := by
  cases x <;> rfl

theorem outcome_lift_bind_eq_ok {x : Except Error α} :
    outcome ((liftM x : ExceptT Error (StateM σ) α) >>= f) s = (.ok b, s') ↔
      ∃ a, x = .ok a ∧ outcome (f a) s = (.ok b, s') := by
  rw [outcome_bind_eq_ok, outcome_lift]
  constructor
  · rintro ⟨a, s₁, hx, hf⟩
    cases hx
    exact ⟨a, rfl, hf⟩
  · rintro ⟨a, rfl, hf⟩
    exact ⟨a, s, rfl, hf⟩

end Stateful

end Homomorphic
