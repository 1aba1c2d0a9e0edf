import Homomorphic.Proofs.Paillier.Key

namespace Homomorphic.Paillier

/-- Whether an exponent may be reduced modulo `p * (p - 1)` in a power modulo `p * p`. The power of a
base that `p` divides is zero for all exponents that this changes, so that it has to be zero for the
reduced one as well. -/
def ReducibleExponent (p base exponent : ℕ) : Prop :=
  p ∣ base → p * (p - 1) ≤ exponent →
    2 ≤ exponent % (p * (p - 1)) ∨ exponent % (p * (p - 1)) = 1 ∧ p * p ∣ base

theorem mul_self_dvd_pow_iff {p base : ℕ} (hp : 1 < p) (hdvd : p ∣ base) (k : ℕ) :
    p * p ∣ base ^ k ↔ 2 ≤ k ∨ k = 1 ∧ p * p ∣ base := by
  match k with
  | 0 => simp [hp.ne']
  | 1 => simp
  | k + 2 =>
    refine iff_of_true ?_ (.inl (by omega))
    rw [pow_add, sq]
    exact (mul_dvd_mul hdvd hdvd).mul_left _

theorem pow_mod_modEq_pow_iff {p : ℕ} (hp : p.Prime) (base exponent : ℕ) :
    base ^ (exponent % (p * (p - 1))) ≡ base ^ exponent [MOD p * p] ↔
      ReducibleExponent p base exponent := by
  by_cases hdvd : p ∣ base
  swap
  · have hunit := SecretKey.isUnit_cast_square ((Nat.Prime.coprime_iff_not_dvd hp).mpr hdvd).symm
    refine iff_of_true ?_ fun h => absurd h hdvd
    rw [← ZMod.natCast_eq_natCast_iff, Nat.cast_pow, Nat.cast_pow,
      SecretKey.pow_mod_mul_pred hp hunit]
  rcases lt_or_ge exponent (p * (p - 1)) with hlt | hle
  · rw [Nat.mod_eq_of_lt hlt]
    exact iff_of_true rfl fun _ hle => absurd hle (Nat.not_le.mpr hlt)
  have htwo : 2 ≤ exponent := by
    have hpred := hp.two_le
    have hmul := Nat.mul_le_mul hpred (show 1 ≤ p - 1 by omega)
    omega
  have hzero : base ^ exponent ≡ 0 [MOD p * p] :=
    Nat.modEq_zero_iff_dvd.mpr ((mul_self_dvd_pow_iff hp.one_lt hdvd _).mpr (.inl htwo))
  calc base ^ (exponent % (p * (p - 1))) ≡ base ^ exponent [MOD p * p]
      ↔ base ^ (exponent % (p * (p - 1))) ≡ 0 [MOD p * p] :=
        ⟨fun h => h.trans hzero, fun h => h.trans hzero.symm⟩
    _ ↔ 2 ≤ exponent % (p * (p - 1)) ∨ exponent % (p * (p - 1)) = 1 ∧ p * p ∣ base := by
        rw [Nat.modEq_zero_iff_dvd, mul_self_dvd_pow_iff hp.one_lt hdvd]
    _ ↔ ReducibleExponent p base exponent := ⟨fun h _ _ => h, fun h => h hdvd hle⟩

theorem ReducibleExponent.of_coprime {p base : ℕ} (hp : p.Prime) (h : Nat.Coprime base p)
    (exponent : ℕ) : ReducibleExponent p base exponent :=
  fun hdvd => absurd hdvd ((Nat.Prime.coprime_iff_not_dvd hp).mp h.symm)

namespace SecretKey

variable {sk : SecretKey}

theorem powSquare_modEq_p (h : sk.Sound) (base exponent : ℕ) :
    sk.powSquare base exponent ≡ base ^ (exponent % (sk.p.value * (sk.p.value - 1)))
      [MOD sk.p.value * sk.p.value] := by
  rw [← ZMod.natCast_eq_natCast_iff, cast_powSquare_p h, Nat.cast_pow]

theorem powSquare_modEq_q (h : sk.Sound) (base exponent : ℕ) :
    sk.powSquare base exponent ≡ base ^ (exponent % (sk.q.value * (sk.q.value - 1)))
      [MOD sk.q.value * sk.q.value] := by
  rw [← ZMod.natCast_eq_natCast_iff, cast_powSquare_q h, Nat.cast_pow]

theorem powSquare_modEq_iff (h : sk.Sound) (base exponent : ℕ) :
    sk.powSquare base exponent ≡ base ^ exponent [MOD sk.n.value * sk.n.value] ↔
      ReducibleExponent sk.p.value base exponent ∧ ReducibleExponent sk.q.value base exponent := by
  have hp := powSquare_modEq_p h base exponent
  have hq := powSquare_modEq_q h base exponent
  rw [modEq_square_iff h, ← pow_mod_modEq_pow_iff h.prime_p, ← pow_mod_modEq_pow_iff h.prime_q]
  exact and_congr ⟨fun hpow => hp.symm.trans hpow, fun hpow => hp.trans hpow⟩
    ⟨fun hpow => hq.symm.trans hpow, fun hpow => hq.trans hpow⟩

theorem powSquare_eq_iff (h : sk.Sound) (base exponent : ℕ) :
    sk.powSquare base exponent = base ^ exponent % (sk.n.value * sk.n.value) ↔
      ReducibleExponent sk.p.value base exponent ∧ ReducibleExponent sk.q.value base exponent := by
  rw [← powSquare_modEq_iff h, Nat.ModEq, Nat.mod_eq_of_lt (sk.powSquare_lt base exponent)]

theorem powSquare_of_coprime (h : sk.Sound) {base : ℕ} (hbase : Nat.Coprime base sk.n.value)
    (exponent : ℕ) : sk.powSquare base exponent = base ^ exponent % (sk.n.value * sk.n.value) := by
  obtain ⟨hp, hq⟩ := Nat.coprime_mul_iff_right.mp hbase
  exact (powSquare_eq_iff h base exponent).mpr
    ⟨.of_coprime h.prime_p hp exponent, .of_coprime h.prime_q hq exponent⟩

theorem coprime_lambda (h : sk.Sound) : Nat.Coprime sk.lambda sk.n.value :=
  Nat.coprime_of_mul_modEq_one sk.mu h.lambda_mul_mu_modEq

theorem two_lt_of_coprime {p q k : ℕ} (hp : p.Prime) (hq : q.Prime) (hne : p ≠ q) (hdvd : q - 1 ∣ k)
    (hk : Nat.Coprime k p) : 2 < p := by
  apply hp.two_le.lt_of_ne
  rintro rfl
  -- The other prime is odd, so that two divides `k` as well.
  have hodd := hq.eq_two_or_odd.resolve_left hne.symm
  have heven : 2 ∣ q - 1 := by omega
  exact Nat.not_coprime_of_dvd_of_dvd one_lt_two (heven.trans hdvd) dvd_rfl hk

theorem two_le_mod_mul_pred {p k : ℕ} (hp : 2 < p) (hdvd : p - 1 ∣ k) (hk : Nat.Coprime k p) :
    2 ≤ k % (p * (p - 1)) := by
  have hpred : p - 1 ∣ k % (p * (p - 1)) := (Nat.dvd_mod_iff (Nat.dvd_mul_left _ _)).mpr hdvd
  have hpos : 0 < k % (p * (p - 1)) := by
    apply Nat.pos_of_ne_zero
    intro hzero
    have hpk : p ∣ k := (Nat.dvd_mul_right p _).trans (Nat.dvd_of_mod_eq_zero hzero)
    exact Nat.not_coprime_of_dvd_of_dvd (by omega) hpk dvd_rfl hk
  have hle := Nat.le_of_dvd hpos hpred
  omega

theorem powSquare_lambda (h : sk.Sound) (base : ℕ) :
    sk.powSquare base sk.lambda = base ^ sk.lambda % (sk.n.value * sk.n.value) := by
  obtain ⟨hp, hq⟩ := Nat.coprime_mul_iff_right.mp (coprime_lambda h)
  have hdvd_p : sk.p.value - 1 ∣ sk.lambda := h.lambda_eq ▸ Nat.dvd_lcm_left _ _
  have hdvd_q : sk.q.value - 1 ∣ sk.lambda := h.lambda_eq ▸ Nat.dvd_lcm_right _ _
  apply (powSquare_eq_iff h base sk.lambda).mpr
  constructor
  · intro _ _
    have htwo := two_lt_of_coprime h.prime_p h.prime_q h.ne hdvd_q hp
    exact .inl (two_le_mod_mul_pred htwo hdvd_p hp)
  · intro _ _
    have htwo := two_lt_of_coprime h.prime_q h.prime_p h.ne.symm hdvd_p hq
    exact .inl (two_le_mod_mul_pred htwo hdvd_q hq)

theorem powSquare_eq_pow_iff {test : ℕ → Bool} (exact : ExactTest test) {p q lambda mu : ℕ}
    (hsk : ofParts test p q lambda mu = .ok sk) (base exponent : ℕ) :
    sk.powSquare base exponent < (p * q) ^ 2 ∧
      sk.powSquare base exponent ≡ base ^ (exponent % (p * (p - 1))) [MOD p ^ 2] ∧
      sk.powSquare base exponent ≡ base ^ (exponent % (q * (q - 1))) [MOD q ^ 2] ∧
      (sk.powSquare base exponent = base ^ exponent % (p * q) ^ 2 ↔
        ReducibleExponent p base exponent ∧ ReducibleExponent q base exponent) := by
  obtain ⟨rfl, rfl, -, -, hsound, -⟩ := ofParts_eq_ok exact hsk
  rw [sq, sq, sq, ← n_value]
  exact ⟨sk.powSquare_lt base exponent, powSquare_modEq_p hsound base exponent,
    powSquare_modEq_q hsound base exponent, powSquare_eq_iff hsound base exponent⟩

theorem powSquare_eq_pow_iff_seven_mersenne :
    ∃ q sk, q = mersenne 521 ∧
      ofParts (fun n => decide n.Prime) 7 q (q - 1) (4 * q - 1) = .ok sk ∧
      sk.powSquare 7 44 = 7 ^ 44 % (7 * q) ^ 2 ∧ sk.powSquare 7 43 ≠ 7 ^ 43 % (7 * q) ^ 2 := by
  obtain ⟨q, sk, hq, hlarge, hprime, hsk⟩ := exists_ofParts_seven_mersenne
  have hunit (exponent : ℕ) : ReducibleExponent q 7 exponent := by
    apply ReducibleExponent.of_coprime hprime
    exact (Nat.coprime_primes (by norm_num) hprime).mpr hlarge.ne
  obtain ⟨-, -, -, hiff⟩ := powSquare_eq_pow_iff exactTest_decide hsk 7 44
  obtain ⟨-, -, -, hiff'⟩ := powSquare_eq_pow_iff exactTest_decide hsk 7 43
  refine ⟨q, sk, hq, hsk, hiff.mpr ⟨fun _ _ => ?_, hunit 44⟩, fun heq => ?_⟩
  · exact .inl (by norm_num)
  · have hred := (hiff'.mp heq).1 dvd_rfl (by norm_num)
    norm_num at hred

theorem powSquare_ne_pow_seven_mersenne :
    ∃ q sk, q = mersenne 521 ∧
      ofParts (fun n => decide n.Prime) 7 q (q - 1) (4 * q - 1) = .ok sk ∧
      sk.powSquare 7 42 ≡ 1 [MOD 49] ∧ sk.powSquare 7 42 ≠ 7 ^ 42 % (7 * q) ^ 2 := by
  obtain ⟨q, sk, hq, -, -, hsk⟩ := exists_ofParts_seven_mersenne
  obtain ⟨hp, rfl, -, -, hsound, -⟩ := ofParts_eq_ok exactTest_decide hsk
  have hn : 7 * sk.q.value = sk.n.value := by rw [n_value, hp]
  have hone := powSquare_modEq_p hsound 7 42
  rw [hp] at hone
  refine ⟨_, sk, hq, hsk, hone, fun heq => ?_⟩
  rw [hn, sq] at heq
  have hred := ((powSquare_eq_iff hsound 7 42).mp heq).1
  rw [hp] at hred
  have hcases := hred dvd_rfl (by norm_num)
  norm_num at hcases

end SecretKey

end Homomorphic.Paillier
