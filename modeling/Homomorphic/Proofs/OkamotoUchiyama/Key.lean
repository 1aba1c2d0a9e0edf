import Homomorphic.OkamotoUchiyama.Key
import Homomorphic.Proofs.FixedBase
import Homomorphic.Proofs.Primality
import Homomorphic.Proofs.PrincipalUnit

namespace Homomorphic.OkamotoUchiyama

namespace SecretKey

variable {test : ℕ → Bool} {p q gpInv : ℕ}

theorem ofParts_of_prime (exact : ExactTest test) (hp : p.Prime) (hq : q.Prime) (hne : p ≠ q)
    (hsize : Limits.minKeySize ≤ bitLength (p * p * q)) (hpos : 0 < gpInv) (hlt : gpInv < p) :
    ofParts test p q gpInv = .ok ⟨⟨p, hp.one_lt⟩, ⟨q, hq.one_lt⟩, gpInv⟩ := by
  have hnonzero : ¬ (p = 0 ∨ q = 0) := not_or.mpr ⟨hp.ne_zero, hq.ne_zero⟩
  rw [ofParts, if_neg hnonzero, if_neg hne, ofPrime?_eq_some exact hp, ofPrime?_eq_some exact hq]
  simp only [Nat.not_lt.mpr hsize, hpos, hlt, and_self, ↓reduceIte]

theorem ofParts_eq_ok (exact : ExactTest test) {sk : SecretKey}
    (h : ofParts test p q gpInv = .ok sk) :
    sk.p.value = p ∧ sk.q.value = q ∧ sk.gpInv = gpInv ∧ p.Prime ∧ q.Prime ∧ p ≠ q := by
  by_cases hzero : p = 0 ∨ q = 0
  · rw [ofParts, if_pos hzero] at h
    cases h
  by_cases hne : p = q
  · rw [ofParts, if_neg hzero, if_pos hne] at h
    cases h
  by_cases hp : p.Prime
  swap
  · rw [ofParts, if_neg hzero, if_neg hne, ofPrime?_eq_none exact hp] at h
    cases h
  by_cases hq : q.Prime
  swap
  · rw [ofParts, if_neg hzero, if_neg hne, ofPrime?_eq_some exact hp, ofPrime?_eq_none exact hq] at h
    cases h
  have hparts := h
  rw [ofParts, if_neg hzero, if_neg hne, ofPrime?_eq_some exact hp, ofPrime?_eq_some exact hq] at h
  by_cases hsize : bitLength (p * p * q) < Limits.minKeySize
  · simp only [hsize, ↓reduceIte] at h
    cases h
  by_cases hrange : 0 < gpInv ∧ gpInv < p
  swap
  · simp only [hsize, hrange, ↓reduceIte] at h
    cases h
  rw [ofParts_of_prime exact hp hq hne (Nat.le_of_not_lt hsize) hrange.1 hrange.2] at hparts
  cases hparts
  exact ⟨rfl, rfl, rfl, hp, hq, hne⟩

theorem n_value (sk : SecretKey) : sk.n.value = sk.p.value * sk.p.value * sk.q.value := rfl

end SecretKey

namespace PublicKey

variable {n g h : ℕ}

theorem ofParts_eq_ok {pk : PublicKey} (hpk : ofParts n g h = .ok pk) :
    pk.n.value = n ∧ pk.g = g ∧ pk.h = h := by
  by_cases odd : n % 2 = 1
  swap
  · rw [ofParts, dif_neg odd] at hpk
    cases hpk
  by_cases size : Limits.minKeySize ≤ bitLength n
  swap
  · rw [ofParts, dif_pos odd, dif_neg size] at hpk
    cases hpk
  by_cases unitG : (Modulus.ofSize n size).contains g = true ∧
      Nat.gcd g (Modulus.ofSize n size).value = 1
  swap
  · simp only [ofParts, dif_pos odd, dif_pos size, dif_neg unitG, reduceCtorEq] at hpk
  by_cases unitH : (Modulus.ofSize n size).contains h = true ∧
      Nat.gcd h (Modulus.ofSize n size).value = 1
  swap
  · simp only [ofParts, dif_pos odd, dif_pos size, dif_pos unitG, dif_neg unitH, reduceCtorEq] at hpk
  simp only [ofParts, dif_pos odd, dif_pos size, dif_pos unitG, dif_pos unitH,
    Except.ok.injEq] at hpk
  subst hpk
  exact ⟨rfl, rfl, rfl⟩

theorem exists_ofParts (odd : n % 2 = 1) (size : Limits.minKeySize ≤ bitLength n) (hg : g < n)
    (hgn : Nat.Coprime g n) (hh : h < n) (hhn : Nat.Coprime h n) :
    ∃ pk, ofParts n g h = .ok pk := by
  have hone : 1 < n := one_lt_of_one_lt_bitLength (Nat.lt_of_lt_of_le (by decide) size)
  have unit {x : ℕ} (hlt : x < n) (hcoprime : Nat.Coprime x n) :
      (Modulus.ofSize n size).contains x = true ∧ Nat.gcd x (Modulus.ofSize n size).value = 1 := by
    refine ⟨(Modulus.contains_iff _ _).mpr ⟨Nat.pos_of_ne_zero ?_, hlt⟩, hcoprime⟩
    rintro rfl
    rw [Nat.coprime_zero_left] at hcoprime
    omega
  simp only [ofParts, dif_pos odd, dif_pos size, dif_pos (unit hg hgn), dif_pos (unit hh hhn)]
  exact ⟨_, rfl⟩

end PublicKey

theorem pow_pred_eq_principalUnit {p : Modulus} (hp : p.value.Prime) {a : ℕ}
    (ha : Nat.Coprime a p.value) :
    (a : ZMod (p.value * p.value)) ^ (p.value - 1) = principalUnit p.value (logarithm p a) := by
  -- Modulo `p` the power is one, so that modulo `p ^ 2` the quotient determines it.
  have hone : p.square.natPow a (p.value - 1) ≡ 1 [MOD p.value] := by
    have hsquare : ((p.square.value : ℕ) : ZMod p.value) = 0 := by
      rw [Modulus.square_value, Nat.cast_mul, ZMod.natCast_self, mul_zero]
    have htotient := Nat.ModEq.pow_totient ha
    rw [Nat.totient_prime hp, ← ZMod.natCast_eq_natCast_iff, Nat.cast_pow] at htotient
    rw [← ZMod.natCast_eq_natCast_iff, Modulus.cast_natPow hsquare, htotient]
  have hpos : 1 ≤ p.square.natPow a (p.value - 1) := by
    apply Nat.pos_of_ne_zero
    intro hzero
    rw [hzero] at hone
    exact hp.one_lt.ne (Nat.dvd_one.mp ((Nat.modEq_iff_dvd' zero_le_one).mp hone)).symm
  have hquotient : p.square.natPow a (p.value - 1) = 1 + logarithm p a * p.value := by
    rw [logarithm, shiftedQuotient, Nat.div_mul_cancel ((Nat.modEq_iff_dvd' hpos).mp hone.symm)]
    omega
  rw [← Modulus.cast_natPow p.cast_square, hquotient, principalUnit]
  push_cast
  rfl

theorem coprime_logarithm {p : Modulus} (hp : p.value.Prime) {a : ℕ} (ha : Nat.Coprime a p.value)
    (hpow : p.square.natPow a (p.value - 1) ≠ 1) : Nat.Coprime (logarithm p a) p.value := by
  rw [Nat.coprime_comm, hp.coprime_iff_not_dvd]
  intro hdvd
  apply hpow
  have hone : ((p.square.natPow a (p.value - 1) : ℕ) : ZMod (p.value * p.value)) = (1 : ℕ) := by
    rw [Modulus.cast_natPow p.cast_square, pow_pred_eq_principalUnit hp ha,
      principalUnit_congr (Int.modEq_zero_iff_dvd.mpr (Int.natCast_dvd_natCast.mpr hdvd)),
      principalUnit_zero, Nat.cast_one]
  rwa [ZMod.natCast_eq_natCast_iff', ← Modulus.square_value,
    Nat.mod_eq_of_lt (p.square.natPow_lt _ _), Nat.mod_eq_of_lt p.square.one_lt] at hone

theorem logarithm_one_add (p : Modulus) : logarithm p (1 + p.value) = p.value - 1 := by
  have hbase : ((1 + p.value : ℕ) : ZMod (p.value * p.value)) = principalUnit p.value 1 := by
    simp [principalUnit]
  have hpow : ((p.square.natPow (1 + p.value) (p.value - 1) : ℕ) : ZMod (p.value * p.value)) =
      principalUnit p.value (p.value - 1 : ℕ) := by
    rw [Modulus.cast_natPow p.cast_square, hbase, principalUnit_pow, mul_one]
  have hquotient := shiftedQuotient_of_cast p.one_lt (p.square.natPow_lt _ _) hpow
  have hpos := p.value_pos
  rw [← logarithm, Int.emod_eq_of_lt (by omega) (by omega)] at hquotient
  exact_mod_cast hquotient

end Homomorphic.OkamotoUchiyama
