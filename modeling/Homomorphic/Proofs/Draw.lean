import Homomorphic.Entropy
import Homomorphic.Proofs.Outcome

namespace Homomorphic.Draw

variable {α β : Type}

def outcome (d : Draw α) (e : Entropy) : Except Error α × Entropy := d.run e

theorem outcome_bind_of_ok {d : Draw α} {a : α} {e e' : Entropy} (f : α → Draw β)
    (h : d.outcome e = (.ok a, e')) : (d >>= f).outcome e = (f a).outcome e' :=
  Stateful.outcome_bind_of_ok f h

theorem outcome_bind_of_error {d : Draw α} {error : Error} {e e' : Entropy} (f : α → Draw β)
    (h : d.outcome e = (.error error, e')) : (d >>= f).outcome e = (.error error, e') :=
  Stateful.outcome_bind_of_error f h

theorem outcome_bind_eq_ok {d : Draw α} {f : α → Draw β} {b : β} {e e' : Entropy} :
    (d >>= f).outcome e = (.ok b, e') ↔
      ∃ a e₁, d.outcome e = (.ok a, e₁) ∧ (f a).outcome e₁ = (.ok b, e') :=
  Stateful.outcome_bind_eq_ok

theorem outcome_map (f : α → β) (d : Draw α) (e : Entropy) :
    (f <$> d).outcome e = ((d.outcome e).1.map f, (d.outcome e).2) := by
  rw [map_eq_pure_bind]
  rcases h : d.outcome e with ⟨error | a, e'⟩
  · exact outcome_bind_of_error _ h
  · exact outcome_bind_of_ok _ h

theorem outcome_lift (x : Except Error α) (e : Entropy) : (liftM x : Draw α).outcome e = (x, e) :=
  Stateful.outcome_lift x e

theorem outcome_lift_bind_eq_ok {x : Except Error α} {f : α → Draw β} {b : β} {e e' : Entropy} :
    ((liftM x : Draw α) >>= f).outcome e = (.ok b, e') ↔
      ∃ a, x = .ok a ∧ (f a).outcome e = (.ok b, e') :=
  Stateful.outcome_lift_bind_eq_ok

theorem outcome_lift_bind_of_ok {x : Except Error α} {a : α} (f : α → Draw β) (h : x = .ok a)
    (e : Entropy) : ((liftM x : Draw α) >>= f).outcome e = (f a).outcome e := by
  rw [h]
  rfl

theorem outcome_take (count : ℕ) (e : Entropy) :
    (Entropy.take count).outcome e = (.ok (e.next count), { e with used := e.used + count }) := rfl

inductive Fruitless (attempt : Draw (Option α)) : ℕ → Entropy → Entropy → Prop
  | none (e : Entropy) : Fruitless attempt 0 e e
  | more {k : ℕ} {e e' e'' : Entropy} (first : attempt.outcome e = (.ok .none, e'))
      (rest : Fruitless attempt k e' e'') : Fruitless attempt (k + 1) e e''

variable {attempt : Draw (Option α)} {failure : Error}

theorem outcome_retry_of_none {n : ℕ} {e e' : Entropy} (h : attempt.outcome e = (.ok none, e')) :
    (retry attempt failure (n + 1)).outcome e = (retry attempt failure n).outcome e' := by
  rw [retry, outcome_bind_of_ok _ h]

theorem outcome_retry_of_some {n k : ℕ} {e e' e'' : Entropy} {a : α} (hk : k < n)
    (hf : Fruitless attempt k e e') (h : attempt.outcome e' = (.ok (some a), e'')) :
    (retry attempt failure n).outcome e = (.ok a, e'') := by
  induction hf generalizing n with
  | none e =>
    obtain ⟨n, rfl⟩ := Nat.exists_eq_succ_of_ne_zero hk.ne'
    rw [Nat.succ_eq_add_one, retry, outcome_bind_of_ok _ h]
    rfl
  | more first rest ih =>
    obtain ⟨n, rfl⟩ := Nat.exists_eq_succ_of_ne_zero (Nat.ne_zero_of_lt hk)
    rw [Nat.succ_eq_add_one, outcome_retry_of_none first]
    exact ih (by omega) h

theorem outcome_retry_of_error {n k : ℕ} {e e' e'' : Entropy} {error : Error} (hk : k < n)
    (hf : Fruitless attempt k e e') (h : attempt.outcome e' = (.error error, e'')) :
    (retry attempt failure n).outcome e = (.error error, e'') := by
  induction hf generalizing n with
  | none e =>
    obtain ⟨n, rfl⟩ := Nat.exists_eq_succ_of_ne_zero hk.ne'
    rw [Nat.succ_eq_add_one, retry, outcome_bind_of_error _ h]
  | more first rest ih =>
    obtain ⟨n, rfl⟩ := Nat.exists_eq_succ_of_ne_zero (Nat.ne_zero_of_lt hk)
    rw [Nat.succ_eq_add_one, outcome_retry_of_none first]
    exact ih (by omega) h

theorem outcome_retry_cases (attempt : Draw (Option α)) (failure : Error) (n : ℕ) (e : Entropy) :
    (∃ k < n, ∃ e' e'' a, Fruitless attempt k e e' ∧ attempt.outcome e' = (.ok (some a), e'') ∧
      (retry attempt failure n).outcome e = (.ok a, e'')) ∨
    (∃ k < n, ∃ e' e'' error, Fruitless attempt k e e' ∧ attempt.outcome e' = (.error error, e'') ∧
      (retry attempt failure n).outcome e = (.error error, e'')) ∨
    ∃ e', Fruitless attempt n e e' ∧ (retry attempt failure n).outcome e = (.error failure, e') := by
  induction n generalizing e with
  | zero => exact .inr (.inr ⟨e, .none e, rfl⟩)
  | succ n ih =>
    rcases h : attempt.outcome e with ⟨error | _ | a, e'⟩
    · exact .inr (.inl ⟨0, by omega, e, e', error, .none e, h,
        outcome_retry_of_error (by omega) (.none e) h⟩)
    · rw [outcome_retry_of_none h]
      rcases ih e' with ⟨k, hk, e₁, e₂, a, hf, ha, hr⟩ | ⟨k, hk, e₁, e₂, error, hf, ha, hr⟩ |
        ⟨e₁, hf, hr⟩
      · exact .inl ⟨k + 1, by omega, e₁, e₂, a, .more h hf, ha, hr⟩
      · exact .inr (.inl ⟨k + 1, by omega, e₁, e₂, error, .more h hf, ha, hr⟩)
      · exact .inr (.inr ⟨e₁, .more h hf, hr⟩)
    · exact .inl ⟨0, by omega, e, e', a, .none e, h, outcome_retry_of_some (by omega) (.none e) h⟩

theorem exists_of_outcome_retry {n : ℕ} {e e' : Entropy} {a : α}
    (h : (retry attempt failure n).outcome e = (.ok a, e')) :
    ∃ e₁, attempt.outcome e₁ = (.ok (some a), e') := by
  rcases outcome_retry_cases attempt failure n e with ⟨k, -, e₁, e₂, a', -, hattempt, hretry⟩ |
    ⟨k, -, e₁, e₂, error, -, -, hretry⟩ | ⟨e₁, -, hretry⟩
  · rw [h] at hretry
    cases hretry
    exact ⟨e₁, hattempt⟩
  all_goals
    rw [h] at hretry
    cases hretry

theorem outcome_retry_of_total (htotal : ∀ e, ∃ x e', attempt.outcome e = (.ok x, e')) (n : ℕ)
    (e : Entropy) :
    (∃ k < n, ∃ e' e'' a, Fruitless attempt k e e' ∧ attempt.outcome e' = (.ok (some a), e'') ∧
      (retry attempt failure n).outcome e = (.ok a, e'')) ∨
    ∃ e', Fruitless attempt n e e' ∧ (retry attempt failure n).outcome e = (.error failure, e') := by
  rcases outcome_retry_cases attempt failure n e with h | ⟨k, -, e', e'', error, -, herror, -⟩ | h
  · exact .inl h
  · obtain ⟨x, e₁, hx⟩ := htotal e'
    rw [hx] at herror
    cases herror
  · exact .inr h

def Ensures (d : Draw α) (value : α → Prop) (failure : Error → Prop) : Prop :=
  ∀ e, match (d.outcome e).1 with
    | .ok a => value a
    | .error error => failure error

section Ensures

variable {d : Draw α} {P value : α → Prop} {Q : β → Prop} {failure : Error → Prop}

theorem Ensures.of_ok {e e' : Entropy} {a : α} (hd : Ensures d value failure)
    (h : d.outcome e = (.ok a, e')) : value a := by
  have hvalue := hd e
  rwa [h] at hvalue

theorem ensures_pure {a : α} (h : value a) : Ensures (pure a) value failure := fun _ => h

theorem Ensures.bind {f : α → Draw β} (hd : Ensures d P failure)
    (hf : ∀ a, P a → Ensures (f a) Q failure) : Ensures (d >>= f) Q failure := by
  intro e
  have hvalue := hd e
  rcases h : d.outcome e with ⟨error | a, e'⟩
  · rw [h] at hvalue
    rw [outcome_bind_of_error f h]
    exact hvalue
  · rw [h] at hvalue
    rw [outcome_bind_of_ok f h]
    exact hf a hvalue e'

theorem ensures_lift_bind {x : Except Error α} {a : α} {f : α → Draw β} (h : x = .ok a)
    (hf : Ensures (f a) Q failure) : Ensures ((liftM x : Draw α) >>= f) Q failure := by
  intro e
  rw [outcome_lift_bind_of_ok f h]
  exact hf e

theorem Ensures.retry {attempt : Draw (Option α)} {error : Error}
    (hattempt : Ensures attempt (fun x => ∀ a ∈ x, value a) failure) (herror : failure error) (n : ℕ) :
    Ensures (retry attempt error n) value failure := by
  induction n with
  | zero => exact fun _ => herror
  | succ n ih =>
    rw [Draw.retry]
    refine hattempt.bind fun x hx => ?_
    cases x with
    | none => exact ih
    | some a => exact ensures_pure (hx a rfl)

end Ensures

end Homomorphic.Draw
