import Homomorphic.Number.Bits
import Homomorphic.Number.Power
import Mathlib

namespace Homomorphic

theorem lt_two_pow_bitLength (n : Nat) : n < 2 ^ bitLength n := by
  unfold bitLength
  split
  · omega
  · exact Nat.lt_log2_self

theorem bitLength_le {n k : Nat} : bitLength n ≤ k ↔ n < 2 ^ k := by
  unfold bitLength
  split
  · next h => exact iff_of_true (Nat.zero_le _) (h ▸ Nat.two_pow_pos k)
  · next h => rw [Nat.add_one_le_iff, Nat.log2_lt h]

theorem lt_bitLength {n k : Nat} : k < bitLength n ↔ 2 ^ k ≤ n := by
  rw [← Nat.not_le, bitLength_le, Nat.not_lt]

theorem powBits_eq (b m bits e : Nat) (h : e < 2 ^ bits) : powBits b m bits e = b ^ e % m := by
  induction bits generalizing e with
  | zero => simp [powBits, show e = 0 by simpa using h]
  | succ bits ih =>
    by_cases he : e = 0
    · simp [powBits, he]
    have hhalf : e / 2 < 2 ^ bits := by rw [Nat.pow_succ] at h; omega
    have hsquare : b ^ (e / 2) % m * (b ^ (e / 2) % m) % m = b ^ (e / 2 + e / 2) % m := by
      rw [← Nat.mul_mod, ← Nat.pow_add]
    simp only [powBits, he, ↓reduceIte, ih _ hhalf, hsquare]
    split
    · next hodd =>
      rw [Nat.mod_mul_mod, ← Nat.pow_succ]
      congr 2
      omega
    · next heven =>
      congr 2
      omega

theorem powMod_eq (b e m : Nat) : powMod b e m = b ^ e % m := by
  rw [powMod, powBits_eq _ _ _ _ Nat.lt_log2_self, ← Nat.pow_mod]

end Homomorphic
