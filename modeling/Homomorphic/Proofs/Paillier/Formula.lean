import Homomorphic.Paillier.Cipher
import Homomorphic.Proofs.Paillier.Power

namespace Homomorphic.Paillier

/-- The message of a ciphertext, up to a multiple of `n`: with `u` the plain power of the ciphertext by
`lambda` modulo `n ^ 2`, the integral part of `(u - 1) / n`, or zero for `u` zero, times `mu`. -/
def decryptionFormula (n lambda mu c : ℕ) : ℕ :=
  let u := c ^ lambda % n ^ 2
  (if u = 0 then 0 else (u - 1) / n) * mu

variable {sk : SecretKey}

theorem decryptionFormula_eq (n lambda mu c : ℕ) :
    decryptionFormula n lambda mu c = shiftedQuotient (c ^ lambda % (n * n)) n * mu := by
  rw [decryptionFormula, shiftedQuotient, sq]
  by_cases hzero : c ^ lambda % (n * n) = 0
  · simp [hzero]
  · simp [hzero]

theorem decrypt_of_outside {c : ℕ} (hc : c = 0 ∨ sk.n.value ^ 2 ≤ c) :
    sk.decrypt ⟨c⟩ = .error (.domain .outsideSquare) := by
  have hcontains : ¬ sk.n.square.contains c = true := by
    rw [Modulus.contains_iff, Modulus.square_value, ← sq]
    omega
  rw [SecretKey.decrypt, if_neg hcontains]

theorem decrypt_of_inside (h : sk.Sound) {c : ℕ} (hpos : 0 < c) (hlt : c < sk.n.value ^ 2) :
    ∃ m, sk.decrypt ⟨c⟩ = .ok m ∧ m ∈ symmetricRange sk.n.value ∧
      IsOnlyIn (symmetricRange sk.n.value) sk.n.value
        (decryptionFormula sk.n.value sk.lambda sk.mu c) m := by
  have hcontains : sk.n.square.contains c = true := by
    rw [Modulus.contains_iff, Modulus.square_value, ← sq]
    exact ⟨hpos, hlt⟩
  rw [SecretKey.decrypt, if_pos hcontains]
  refine ⟨_, rfl, sk.n.center_mem _, (sk.n.isOnlyIn_center _).congr ?_⟩
  rw [SecretKey.powSquare_lambda h, decryptionFormula_eq, Modulus.mul, Int.natCast_modEq_iff]
  exact Nat.mod_modEq _ _

theorem decrypt_eq_formula {test : ℕ → Bool} (exact : ExactTest test) {p q lambda mu : ℕ}
    (hsk : SecretKey.ofParts test p q lambda mu = .ok sk) (c : ℕ) :
    (c = 0 ∨ (p * q) ^ 2 ≤ c → sk.decrypt ⟨c⟩ = .error (.domain .outsideSquare)) ∧
      (0 < c → c < (p * q) ^ 2 → ∃ m, sk.decrypt ⟨c⟩ = .ok m ∧
        IsOnlyIn (symmetricRange (p * q)) (p * q) (decryptionFormula (p * q) lambda mu c) m ∧
        m.natAbs ≤ p * q / 2 ∧
        ∀ hs pk, PublicKey.ofParts (p * q) hs = .ok pk → pk.checkPlaintext m = .ok ()) := by
  obtain ⟨rfl, rfl, rfl, rfl, hsound, -⟩ := SecretKey.ofParts_eq_ok exact hsk
  rw [← SecretKey.n_value]
  refine ⟨decrypt_of_outside, fun hpos hlt => ?_⟩
  obtain ⟨m, hm, hrange, honly⟩ := decrypt_of_inside hsound hpos hlt
  have hbound : m.natAbs ≤ sk.n.value / 2 := by
    rw [mem_symmetricRange] at hrange
    omega
  refine ⟨m, hm, honly, hbound, fun hs pk hpk => ?_⟩
  obtain ⟨hn, -⟩ := PublicKey.ofParts_eq_ok hpk
  rw [PublicKey.checkPlaintext, PublicKey.bound, Modulus.half, hn, if_pos hbound]

theorem decrypt_eq_formula_seven_mersenne :
    ∃ q sk, q = mersenne 521 ∧
      SecretKey.ofParts (fun n => decide n.Prime) 7 q (q - 1) (4 * q - 1) = .ok sk ∧
      sk.decrypt ⟨0⟩ = .error (.domain .outsideSquare) ∧ sk.decrypt ⟨7 * q⟩ = .ok 0 := by
  obtain ⟨q, sk, hq, hlarge, -, hsk⟩ := SecretKey.exists_ofParts_seven_mersenne
  have hsquare : 7 * q < (7 * q) ^ 2 := by nlinarith
  obtain ⟨m, hm, honly, -⟩ :=
    (decrypt_eq_formula exactTest_decide hsk (7 * q)).2 (by omega) hsquare
  have hformula : decryptionFormula (7 * q) (q - 1) (4 * q - 1) (7 * q) = 0 := by
    have hdvd : (7 * q) ^ 2 ∣ (7 * q) ^ (q - 1) := pow_dvd_pow _ (by omega)
    rw [decryptionFormula, Nat.mod_eq_zero_of_dvd hdvd]
    exact zero_mul _
  have hzero : 0 = m := (honly 0).mp ⟨by rw [mem_symmetricRange]; omega, by rw [hformula]; rfl⟩
  refine ⟨q, sk, hq, hsk, (decrypt_eq_formula exactTest_decide hsk 0).1 (.inl rfl), ?_⟩
  rw [hm, hzero]

end Homomorphic.Paillier
