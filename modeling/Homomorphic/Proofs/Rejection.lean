import Homomorphic.Proofs.BytesTaken

namespace Homomorphic.Draw

variable {α : Type} {d : Draw α} {passes : α → Prop} [DecidablePred passes] {a : α} {e e' : Entropy}
  {error failure : Error} {n k : ℕ}

def screened (d : Draw α) (passes : α → Prop) [DecidablePred passes] : Draw (Option α) := do
  let a ← d
  return if passes a then some a else none

/-- So many values drawn in a row do not pass; they lead from one place of a stream to another. -/
inductive Rejected (d : Draw α) (passes : α → Prop) : ℕ → Entropy → Entropy → Prop
  | none (e : Entropy) : Rejected d passes 0 e e
  | more {k : ℕ} {e e' e'' : Entropy} {a : α} (first : d.outcome e = (.ok a, e')) (fails : ¬ passes a)
    (rest : Rejected d passes k e' e'') : Rejected d passes (k + 1) e e''

theorem outcome_screened_eq_none : (d.screened passes).outcome e = (.ok none, e') ↔
    ∃ a, d.outcome e = (.ok a, e') ∧ ¬ passes a := by
  rw [screened, outcome_bind_eq_ok]
  constructor
  · rintro ⟨a, e₁, ha, hscreen⟩
    by_cases h : passes a
    · rw [if_pos h] at hscreen
      cases hscreen
    · rw [if_neg h] at hscreen
      cases hscreen
      exact ⟨a, ha, h⟩
  · rintro ⟨a, ha, h⟩
    refine ⟨a, e', ha, ?_⟩
    rw [if_neg h]
    rfl

theorem outcome_screened_eq_error : (d.screened passes).outcome e = (.error error, e') ↔
    d.outcome e = (.error error, e') := by
  rcases h : d.outcome e with ⟨error' | a, e₁⟩
  · rw [screened, outcome_bind_of_error _ h]
    exact ⟨fun heq => by cases heq; rfl, fun heq => by cases heq; rfl⟩
  · rw [screened, outcome_bind_of_ok _ h]
    exact iff_of_false (by rintro ⟨⟩) (by rintro ⟨⟩)

theorem fruitless_screened_iff :
    Fruitless (d.screened passes) k e e' ↔ Rejected d passes k e e' := by
  constructor
  · intro h
    induction h with
    | none e => exact .none e
    | more first rest ih =>
      obtain ⟨a, ha, hfails⟩ := outcome_screened_eq_none.mp first
      exact .more ha hfails ih
  · intro h
    induction h with
    | none e => exact .none e
    | more first fails rest ih => exact .more (outcome_screened_eq_none.mpr ⟨_, first, fails⟩) ih

theorem outcome_retry_of_fruitless {attempt : Draw (Option α)} (h : Fruitless attempt n e e') :
    (retry attempt failure n).outcome e = (.error failure, e') := by
  induction h with
  | none e => rfl
  | more first rest ih => rw [outcome_retry_of_none first, ih]

theorem outcome_retry_eq_error {attempt : Draw (Option α)} :
    (retry attempt failure n).outcome e = (.error error, e') ↔
      (error = failure ∧ Fruitless attempt n e e') ∨
        ∃ k < n, ∃ e₁, Fruitless attempt k e e₁ ∧ attempt.outcome e₁ = (.error error, e') := by
  constructor
  · intro h
    rcases outcome_retry_cases attempt failure n e with ⟨_, _, _, _, _, _, _, hend⟩ |
      ⟨k, hk, e₁, e₂, error', hf, herror, hend⟩ | ⟨e₁, hf, hend⟩
    all_goals
      rw [h] at hend
      cases hend
    · exact .inr ⟨k, hk, e₁, hf, herror⟩
    · exact .inl ⟨rfl, hf⟩
  · rintro (⟨rfl, hf⟩ | ⟨k, hk, e₁, hf, herror⟩)
    · exact outcome_retry_of_fruitless hf
    · exact outcome_retry_of_error hk hf herror

theorem outcome_retry_screened_eq_error :
    (retry (d.screened passes) failure n).outcome e = (.error error, e') ↔
      (error = failure ∧ Rejected d passes n e e') ∨
        ∃ k < n, ∃ e₁, Rejected d passes k e e₁ ∧ d.outcome e₁ = (.error error, e') := by
  simp only [outcome_retry_eq_error, fruitless_screened_iff, outcome_screened_eq_error]

theorem Forward.screened (hd : d.Forward) : (d.screened passes).Forward :=
  hd.bind fun _ => forward_pure _

theorem takes_screened_some_iff (hd : d.Forward) {bytes : Bytes} :
    (d.screened passes).Takes bytes (.ok (some a)) ↔ passes a ∧ d.Takes bytes (.ok a) := by
  rw [Draw.screened, takes_bind_ok_iff hd fun _ => forward_pure _]
  constructor
  · rintro ⟨a', s, t, rfl, hs, ht⟩
    obtain ⟨rfl, hvalue⟩ := takes_pure_ok_iff.mp ht
    obtain ⟨hpasses, ⟨⟩⟩ := Option.ite_none_right_eq_some.mp hvalue
    rw [List.append_nil]
    exact ⟨hpasses, hs⟩
  · rintro ⟨hpasses, h⟩
    refine ⟨a, bytes, [], (List.append_nil bytes).symm, h, ?_⟩
    rw [if_pos hpasses]
    exact takes_pure _

end Homomorphic.Draw
