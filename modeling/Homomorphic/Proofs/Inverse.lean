import Homomorphic.Number.Inverse
import Mathlib

namespace Homomorphic

theorem bezout_fst (r r' : ℕ) (s s' : ℤ) : (bezout r r' s s').1 = Nat.gcd r r' := by
  induction r' using Nat.strong_induction_on generalizing r s s' with
  | _ r' ih =>
    rw [bezout]
    by_cases h : r' = 0
    · simp [h]
    · rw [if_neg h, ih _ (Nat.mod_lt r (by omega)), Nat.gcd_comm r r', Nat.gcd_rec r' r,
        Nat.gcd_comm]

theorem cast_bezout {R : Type} [CommRing R] (a : R) (r r' : ℕ) (s s' : ℤ)
    (h : (r : R) = s * a) (h' : (r' : R) = s' * a) :
    ((bezout r r' s s').1 : R) = (bezout r r' s s').2 * a := by
  induction r' using Nat.strong_induction_on generalizing r s s' with
  | _ r' ih =>
    rw [bezout]
    by_cases hz : r' = 0
    · simpa [hz] using h
    · rw [if_neg hz]
      apply ih _ (Nat.mod_lt r (by omega)) _ _ _ h'
      have hdiv : (r : R) = r' * (r / r' : ℕ) + (r % r' : ℕ) := by
        rw [← Nat.cast_mul, ← Nat.cast_add, Nat.div_add_mod]
      simp only [Int.cast_sub, Int.cast_mul, Int.cast_natCast]
      linear_combination h - hdiv - (r / r' : ℕ) * h'

theorem modInverse?_of_coprime {a m : ℕ} (hm : 0 < m) (h : Nat.Coprime a m) :
    ∃ x, modInverse? a m = some x ∧ x < m ∧ x * a % m = 1 % m := by
  have : NeZero m := ⟨by omega⟩
  have hg : (bezout (a % m) m 1 0).1 = 1 := by
    rw [bezout_fst, ← Nat.gcd_rec, Nat.gcd_comm]
    exact h
  have hs := cast_bezout (a : ZMod m) (a % m) m 1 0 (by simp) (by simp)
  have hnonneg : 0 ≤ (bezout (a % m) m 1 0).2 % (m : ℤ) := Int.emod_nonneg _ (by omega)
  have hlt : (bezout (a % m) m 1 0).2 % (m : ℤ) < m := Int.emod_lt_of_pos _ (by omega)
  refine ⟨_, by simp only [modInverse?, hg, ↓reduceIte]; rfl, by omega, ?_⟩
  have hcast : (((bezout (a % m) m 1 0).2 % (m : ℤ)).toNat : ZMod m) = (bezout (a % m) m 1 0).2 := by
    rw [← Int.cast_natCast, Int.toNat_of_nonneg hnonneg, ZMod.intCast_mod]
  rw [← Nat.ModEq, ← ZMod.natCast_eq_natCast_iff, Nat.cast_mul, hcast, ← hs, hg]

theorem modInverse?_of_not_coprime {a m : ℕ} (h : ¬ Nat.Coprime a m) : modInverse? a m = none := by
  have hg : (bezout (a % m) m 1 0).1 ≠ 1 := by
    rw [bezout_fst, ← Nat.gcd_rec, Nat.gcd_comm]
    exact h
  simp only [modInverse?, hg, ↓reduceIte]

end Homomorphic
