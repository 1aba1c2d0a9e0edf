import Homomorphic.Paillier.Key
import Homomorphic.Proofs.FixedBase
import Homomorphic.Proofs.Primality

namespace Homomorphic.Paillier

namespace SecretKey

structure Sound (sk : SecretKey) : Prop where
  prime_p : sk.p.value.Prime
  prime_q : sk.q.value.Prime
  ne : sk.p.value ≠ sk.q.value
  lambda_eq : sk.lambda = Nat.lcm (sk.p.value - 1) (sk.q.value - 1)
  lambda_mul_mu : sk.lambda * sk.mu % sk.n.value = 1
  crossTerm_p : (sk.crossTerm : ZMod (sk.p.value * sk.p.value)) = 1
  crossTerm_q : (sk.crossTerm : ZMod (sk.q.value * sk.q.value)) = 0

@[mk_iff soundParts_iff]
structure SoundParts (p q lambda mu : ℕ) : Prop where
  prime_p : p.Prime
  prime_q : q.Prime
  ne : p ≠ q
  size : Limits.minKeySize ≤ bitLength (p * q)
  lambda_eq : lambda = Nat.lcm (p - 1) (q - 1)
  inverse : lambda * mu ≡ 1 [MOD p * q]

variable {test : ℕ → Bool} {p q lambda mu : ℕ}

theorem coprime_squares (hp : p.Prime) (hq : q.Prime) (hne : p ≠ q) :
    Nat.Coprime (q * q) (p * p) := by
  have hpq := (Nat.coprime_primes hq hp).mpr hne.symm
  exact (hpq.mul_left hpq).mul_right (hpq.mul_left hpq)

theorem one_lt_mul (hp : p.Prime) (hq : q.Prime) : 1 < p * q :=
  Nat.one_lt_mul_iff.mpr ⟨hp.pos, hq.pos, .inl hp.one_lt⟩

theorem ofParts_cases (exact : ExactTest test) (p q lambda mu : ℕ) :
    SoundParts p q lambda mu ∨
      ∃ fault ≠ KeyFault.squareNotInvertible, ofParts test p q lambda mu = .error (.keyState fault) := by
  by_cases hzero : p = 0 ∨ q = 0
  · exact .inr ⟨.zeroPrime, by decide, by rw [ofParts, if_pos hzero]⟩
  by_cases hne : p = q
  · exact .inr ⟨.equalPrimes, by decide, by rw [ofParts, if_neg hzero, if_pos hne]⟩
  by_cases hp : p.Prime
  swap
  · refine .inr ⟨.compositePrime, by decide, ?_⟩
    rw [ofParts, if_neg hzero, if_neg hne, ofPrime?_eq_none exact hp]
  by_cases hq : q.Prime
  swap
  · refine .inr ⟨.compositePrime, by decide, ?_⟩
    rw [ofParts, if_neg hzero, if_neg hne, ofPrime?_eq_some exact hp, ofPrime?_eq_none exact hq]
  rw [ofParts, if_neg hzero, if_neg hne, ofPrime?_eq_some exact hp, ofPrime?_eq_some exact hq]
  dsimp only
  by_cases hsize : bitLength (p * q) < Limits.minKeySize
  · exact .inr ⟨.shortModulus _, nofun, if_pos hsize⟩
  rw [if_neg hsize]
  by_cases hlambda : lambda = Nat.lcm (p - 1) (q - 1)
  swap
  · exact .inr ⟨.wrongLambda, by decide, if_pos hlambda⟩
  rw [if_neg (not_not.mpr hlambda)]
  by_cases hmu : lambda * mu % (p * q) = 1
  swap
  · exact .inr ⟨.wrongMu, by decide, if_pos hmu⟩
  refine .inl ⟨hp, hq, hne, Nat.le_of_not_lt hsize, hlambda, ?_⟩
  rw [Nat.ModEq, hmu, Nat.mod_eq_of_lt (one_lt_mul hp hq)]

theorem SoundParts.exists_ofParts (exact : ExactTest test) (h : SoundParts p q lambda mu) :
    ∃ sk, ofParts test p q lambda mu = .ok sk ∧ sk.p.value = p ∧ sk.q.value = q ∧
      sk.lambda = lambda ∧ sk.mu = mu ∧ sk.Sound := by
  obtain ⟨hp, hq, hne, hsize, rfl, hmu⟩ := h
  rw [Nat.ModEq, Nat.mod_eq_of_lt (one_lt_mul hp hq)] at hmu
  have hpos : ¬ (p = 0 ∨ q = 0) := not_or.mpr ⟨hp.ne_zero, hq.ne_zero⟩
  obtain ⟨x, hx, _, hmul⟩ :=
    modInverse?_of_coprime (Nat.mul_pos hp.pos hp.pos) (coprime_squares hp hq hne)
  rw [ofParts, if_neg hpos, if_neg hne, ofPrime?_eq_some exact hp, ofPrime?_eq_some exact hq]
  simp only [Nat.not_lt.mpr hsize, hmu, hx, ne_eq, not_true_eq_false, ↓reduceIte]
  refine ⟨_, rfl, rfl, rfl, rfl, rfl, hp, hq, hne, rfl, hmu, ?_, ?_⟩
  · have hone := (ZMod.natCast_eq_natCast_iff _ _ _).mpr hmul
    rwa [Nat.cast_one] at hone
  · rw [Nat.cast_mul, ZMod.natCast_self, mul_zero]

theorem ofParts_eq_ok (exact : ExactTest test) {sk : SecretKey}
    (h : ofParts test p q lambda mu = .ok sk) :
    sk.p.value = p ∧ sk.q.value = q ∧ sk.lambda = lambda ∧ sk.mu = mu ∧ sk.Sound ∧
      Limits.minKeySize ≤ bitLength (p * q) := by
  rcases ofParts_cases exact p q lambda mu with hparts | ⟨fault, -, herror⟩
  · obtain ⟨sk', hsk', hp, hq, hlambda, hmu, hsound⟩ := hparts.exists_ofParts exact
    rw [h] at hsk'
    cases hsk'
    exact ⟨hp, hq, hlambda, hmu, hsound, hparts.size⟩
  · rw [h] at herror
    cases herror

variable {sk : SecretKey}

theorem n_value (sk : SecretKey) : sk.n.value = sk.p.value * sk.q.value := rfl

theorem square_value_eq (sk : SecretKey) :
    sk.n.square.value = sk.p.value * sk.p.value * (sk.q.value * sk.q.value) := by
  rw [Modulus.square_value, n_value]
  ring

theorem Sound.lambda_mul_mu_modEq (h : sk.Sound) : sk.lambda * sk.mu ≡ 1 [MOD sk.n.value] := by
  rw [Nat.ModEq, h.lambda_mul_mu, Nat.mod_eq_of_lt sk.n.one_lt]

theorem powSquare_lt (sk : SecretKey) (base exponent : ℕ) :
    sk.powSquare base exponent < sk.n.value * sk.n.value := sk.n.square.add_lt _ _

theorem cast_powSquare_p (h : sk.Sound) (base exponent : ℕ) :
    (sk.powSquare base exponent : ZMod (sk.p.value * sk.p.value)) =
      (base : ZMod _) ^ (exponent % (sk.p.value * (sk.p.value - 1))) := by
  have hn : ((sk.n.square.value : ℕ) : ZMod (sk.p.value * sk.p.value)) = 0 := by
    rw [square_value_eq, Nat.cast_mul, ZMod.natCast_self, zero_mul]
  have hp : ((sk.p.square.value : ℕ) : ZMod (sk.p.value * sk.p.value)) = 0 := ZMod.natCast_self _
  simp only [powSquare, Modulus.cast_add hn, Modulus.cast_mul hn, Modulus.cast_sub hn,
    h.crossTerm_p, mul_one, add_sub_cancel, Modulus.cast_natPow hp]

theorem cast_powSquare_q (h : sk.Sound) (base exponent : ℕ) :
    (sk.powSquare base exponent : ZMod (sk.q.value * sk.q.value)) =
      (base : ZMod _) ^ (exponent % (sk.q.value * (sk.q.value - 1))) := by
  have hn : ((sk.n.square.value : ℕ) : ZMod (sk.q.value * sk.q.value)) = 0 := by
    rw [square_value_eq, Nat.cast_mul, ZMod.natCast_self, mul_zero]
  have hq : ((sk.q.square.value : ℕ) : ZMod (sk.q.value * sk.q.value)) = 0 := ZMod.natCast_self _
  simp only [powSquare, Modulus.cast_add hn, Modulus.cast_mul hn, Modulus.cast_sub hn,
    h.crossTerm_q, mul_zero, add_zero, Modulus.cast_natPow hq]

theorem pow_mul_pred {p : ℕ} (hp : p.Prime) {x : ZMod (p * p)} (hx : IsUnit x) :
    x ^ (p * (p - 1)) = 1 := by
  obtain ⟨u, rfl⟩ := hx
  have htotient : Nat.totient (p * p) = p * (p - 1) := by
    rw [← sq, Nat.totient_prime_pow hp (by omega), pow_one]
  rw [← htotient, ← Units.val_pow_eq_pow_val, ZMod.pow_totient, Units.val_one]

theorem pow_mod_mul_pred {p : ℕ} (hp : p.Prime) {x : ZMod (p * p)} (hx : IsUnit x) (e : ℕ) :
    x ^ (e % (p * (p - 1))) = x ^ e := by
  conv_rhs => rw [← Nat.mod_add_div e (p * (p - 1)), pow_add, pow_mul, pow_mul_pred hp hx, one_pow,
    mul_one]

theorem isUnit_cast_square {p a : ℕ} (h : Nat.Coprime a p) : IsUnit (a : ZMod (p * p)) :=
  (ZMod.isUnit_iff_coprime a (p * p)).mpr (h.mul_right h)

theorem modEq_square_iff (h : sk.Sound) (a b : ℕ) :
    a ≡ b [MOD sk.n.value * sk.n.value] ↔
      a ≡ b [MOD sk.p.value * sk.p.value] ∧ a ≡ b [MOD sk.q.value * sk.q.value] := by
  rw [Nat.modEq_and_modEq_iff_modEq_mul (coprime_squares h.prime_q h.prime_p h.ne.symm)]
  rw [← square_value_eq, Modulus.square_value]

theorem pow_mul_lambda (h : sk.Sound) {a : ℕ} (ha : Nat.Coprime a sk.n.value) :
    a ^ (sk.n.value * sk.lambda) ≡ 1 [MOD sk.n.value * sk.n.value] := by
  obtain ⟨hp, hq⟩ := Nat.coprime_mul_iff_right.mp ha
  have vanish {p k : ℕ} (hprime : p.Prime) (hap : Nat.Coprime a p) (hk : p * (p - 1) ∣ k) :
      a ^ k ≡ 1 [MOD p * p] := by
    obtain ⟨j, rfl⟩ := hk
    rw [← ZMod.natCast_eq_natCast_iff, Nat.cast_pow, pow_mul,
      pow_mul_pred hprime (isUnit_cast_square hap), one_pow, Nat.cast_one]
  rw [modEq_square_iff h]
  constructor
  · apply vanish h.prime_p hp
    rw [h.lambda_eq]
    exact Nat.mul_dvd_mul (Nat.dvd_mul_right _ _) (Nat.dvd_lcm_left _ _)
  · apply vanish h.prime_q hq
    rw [h.lambda_eq]
    exact Nat.mul_dvd_mul (Nat.dvd_mul_left _ _) (Nat.dvd_lcm_right _ _)

theorem exists_ofParts_seven_mersenne : ∃ q sk, q = mersenne 521 ∧ 7 < q ∧ q.Prime ∧
    ofParts (fun n => decide n.Prime) 7 q (q - 1) (4 * q - 1) = .ok sk := by
  have hsize : Limits.minKeySize ≤ bitLength (7 * mersenne 521) :=
    lt_bitLength.mpr (by decide +kernel)
  have hlarge : 7 < mersenne 521 := by decide +kernel
  have hlambda : mersenne 521 - 1 = Nat.lcm (7 - 1) (mersenne 521 - 1) := by decide +kernel
  have hmu : (mersenne 521 - 1) * (4 * mersenne 521 - 1) ≡ 1 [MOD 7 * mersenne 521] := by
    decide +kernel
  have hparts : SoundParts 7 (mersenne 521) (mersenne 521 - 1) (4 * mersenne 521 - 1) :=
    ⟨by norm_num, prime_mersenne_521, hlarge.ne, hsize, hlambda, hmu⟩
  obtain ⟨sk, hsk, -⟩ := hparts.exists_ofParts exactTest_decide
  exact ⟨mersenne 521, sk, rfl, hlarge, prime_mersenne_521, hsk⟩

end SecretKey

namespace PublicKey

theorem ofParts_eq_ok {n hs : ℕ} {pk : PublicKey} (h : ofParts n hs = .ok pk) :
    pk.n.value = n ∧ pk.hs = hs := by
  by_cases hzero : n = 0
  · rw [ofParts, if_pos hzero] at h
    cases h
  by_cases odd : n % 2 = 1
  swap
  · rw [ofParts, if_neg hzero, dif_neg odd] at h
    cases h
  by_cases size : Limits.minKeySize ≤ bitLength n
  swap
  · rw [ofParts, if_neg hzero, dif_pos odd, dif_neg size] at h
    cases h
  by_cases unit : (Modulus.ofSize n size).square.contains hs = true ∧
      Nat.gcd hs (Modulus.ofSize n size).value = 1
  · simp only [ofParts, if_neg hzero, dif_pos odd, dif_pos size, dif_pos unit, Except.ok.injEq] at h
    subst h
    exact ⟨rfl, rfl⟩
  · simp only [ofParts, if_neg hzero, dif_pos odd, dif_pos size, dif_neg unit, reduceCtorEq] at h

theorem exists_ofParts {n hs : ℕ} (odd : n % 2 = 1) (size : Limits.minKeySize ≤ bitLength n)
    (hlt : hs < n * n) (hunit : Nat.Coprime hs n) :
    ∃ pk, ofParts n hs = .ok pk ∧ pk.n.value = n ∧ pk.hs = hs := by
  have hone : 1 < n := one_lt_of_one_lt_bitLength (Nat.lt_of_lt_of_le (by decide) size)
  have hpos : 0 < hs := by
    apply Nat.pos_of_ne_zero
    rintro rfl
    rw [Nat.coprime_zero_left] at hunit
    omega
  have unit : (Modulus.ofSize n size).square.contains hs = true ∧
      Nat.gcd hs (Modulus.ofSize n size).value = 1 :=
    ⟨(Modulus.contains_iff _ _).mpr ⟨hpos, hlt⟩, hunit⟩
  simp only [ofParts, if_neg (show ¬ n = 0 by omega), dif_pos odd, dif_pos size, dif_pos unit]
  exact ⟨_, rfl, rfl, rfl⟩

theorem exists_ofParts_residue {n h : ℕ} (odd : n % 2 = 1) (size : Limits.minKeySize ≤ bitLength n)
    (hh : Nat.Coprime h n) :
    ∃ pk, ofParts n (h ^ n % n ^ 2) = .ok pk ∧ pk.n.value = n ∧ pk.hs = h ^ n % n ^ 2 := by
  have hsquare : Nat.Coprime (h ^ n % n ^ 2) (n ^ 2) :=
    (ZMod.coprime_mod_iff_coprime _ _).mpr (hh.pow n 2)
  apply exists_ofParts odd size
  · rw [← sq]
    exact Nat.mod_lt _ (pow_pos (by omega) 2)
  · exact hsquare.coprime_dvd_right (dvd_pow_self n two_ne_zero)

theorem exists_ofParts_seven_mersenne : ∃ (n : ℕ) (pk : PublicKey), n = 7 * mersenne 521 ∧
    ofParts n 2 = .ok pk ∧ pk.n.value = n ∧ 3 < n ∧ Nat.Coprime 2 n ∧ Nat.Coprime 3 n := by
  obtain ⟨n, hn⟩ : ∃ n, n = 7 * mersenne 521 := ⟨_, rfl⟩
  have hodd : n % 2 = 1 := by
    rw [hn]
    decide +kernel
  have hsize : Limits.minKeySize ≤ bitLength n := lt_bitLength.mpr (by rw [hn]; decide +kernel)
  have hthree : Nat.Coprime 3 n := by
    rw [hn]
    decide +kernel
  have hlarge : 3 < n := by
    rw [hn]
    decide +kernel
  have htwo : Nat.Coprime 2 n := Nat.coprime_two_left.mpr (Nat.odd_iff.mpr hodd)
  obtain ⟨pk, hpk, hvalue, -⟩ := exists_ofParts hodd hsize (by nlinarith) htwo
  exact ⟨n, pk, hn, hpk, hvalue, hlarge, htwo, hthree⟩

end PublicKey

end Homomorphic.Paillier
