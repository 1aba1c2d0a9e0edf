import Homomorphic.Proofs.Paillier.Key

namespace Homomorphic.Paillier.SecretKey

variable {test : ℕ → Bool} {p q lambda mu : ℕ}

theorem exists_ofParts_iff (exact : ExactTest test) :
    (∃ sk, ofParts test p q lambda mu = .ok sk) ↔ SoundParts p q lambda mu := by
  constructor
  · rintro ⟨sk, hsk⟩
    rcases ofParts_cases exact p q lambda mu with hparts | ⟨fault, -, herror⟩
    · exact hparts
    · rw [hsk] at herror
      cases herror
  · intro hparts
    obtain ⟨sk, hsk, -⟩ := hparts.exists_ofParts exact
    exact ⟨sk, hsk⟩

theorem coprime_lcm_pred_iff (hp : p.Prime) (hq : q.Prime) :
    Nat.Coprime (Nat.lcm (p - 1) (q - 1)) (p * q) ↔ ¬ p ∣ q - 1 ∧ ¬ q ∣ p - 1 := by
  have hself {r : ℕ} (hr : r.Prime) : ¬ r ∣ r - 1 :=
    Nat.not_dvd_of_pos_of_lt (Nat.sub_pos_of_lt hr.one_lt) (Nat.sub_lt hr.pos one_pos)
  have hprime {r k : ℕ} (hr : r.Prime) : Nat.Coprime k r ↔ ¬ r ∣ k :=
    Nat.coprime_comm.trans hr.coprime_iff_not_dvd
  -- No prime divides its own predecessor, which leaves that of the other prime.
  rw [Nat.coprime_mul_iff_right, hprime hp, hprime hq, hp.dvd_lcm, hq.dvd_lcm]
  simp [hself hp, hself hq]

theorem ofPrimes_of_coprime (test : ℕ → Bool) (hp : p ≠ 0) (hq : q ≠ 0)
    (h : Nat.Coprime (Nat.lcm (p - 1) (q - 1)) (p * q)) :
    ∃ mu < p * q, Nat.lcm (p - 1) (q - 1) * mu ≡ 1 [MOD p * q] ∧
      ofPrimes test p q = ofParts test p q (Nat.lcm (p - 1) (q - 1)) mu := by
  obtain ⟨mu, hmu, hlt, hmul⟩ :=
    modInverse?_of_coprime (Nat.mul_pos (Nat.pos_of_ne_zero hp) (Nat.pos_of_ne_zero hq)) h
  refine ⟨mu, hlt, (Nat.mul_comm _ mu).symm ▸ hmul, ?_⟩
  rw [ofPrimes, if_neg (not_or.mpr ⟨hp, hq⟩)]
  simp only [hmu]

theorem ofPrimes_of_not_coprime (test : ℕ → Bool) (hp : p ≠ 0) (hq : q ≠ 0)
    (h : ¬ Nat.Coprime (Nat.lcm (p - 1) (q - 1)) (p * q)) :
    ofPrimes test p q = .error (.keyState .lambdaNotInvertible) := by
  rw [ofPrimes, if_neg (not_or.mpr ⟨hp, hq⟩)]
  simp only [modInverse?_of_not_coprime h]

theorem ofPrimes_cases (test : ℕ → Bool) (p q : ℕ) :
    (Nat.Coprime (Nat.lcm (p - 1) (q - 1)) (p * q) ∧
      ∃ mu < p * q, Nat.lcm (p - 1) (q - 1) * mu ≡ 1 [MOD p * q] ∧
        ofPrimes test p q = ofParts test p q (Nat.lcm (p - 1) (q - 1)) mu) ∨
    ∃ fault ≠ KeyFault.squareNotInvertible, ofPrimes test p q = .error (.keyState fault) := by
  by_cases hzero : p = 0 ∨ q = 0
  · exact .inr ⟨.zeroPrime, by decide, by rw [ofPrimes, if_pos hzero]⟩
  obtain ⟨hp, hq⟩ := not_or.mp hzero
  by_cases hcoprime : Nat.Coprime (Nat.lcm (p - 1) (q - 1)) (p * q)
  · exact .inl ⟨hcoprime, ofPrimes_of_coprime test hp hq hcoprime⟩
  · exact .inr ⟨.lambdaNotInvertible, by decide, ofPrimes_of_not_coprime test hp hq hcoprime⟩

theorem exists_ofParts_of_ofPrimes {sk : SecretKey} (h : ofPrimes test p q = .ok sk) :
    ∃ mu < p * q, Nat.lcm (p - 1) (q - 1) * mu ≡ 1 [MOD p * q] ∧
      ofParts test p q (Nat.lcm (p - 1) (q - 1)) mu = .ok sk := by
  rcases ofPrimes_cases test p q with ⟨-, mu, hlt, hmu, heq⟩ | ⟨fault, -, herror⟩
  · exact ⟨mu, hlt, hmu, heq ▸ h⟩
  · rw [h] at herror
    cases herror

theorem exists_ofPrimes_iff (exact : ExactTest test) :
    (∃ sk, ofPrimes test p q = .ok sk) ↔
      p.Prime ∧ q.Prime ∧ p ≠ q ∧ Limits.minKeySize ≤ bitLength (p * q) ∧ ¬ p ∣ q - 1 ∧
        ¬ q ∣ p - 1 := by
  constructor
  · rintro ⟨sk, hsk⟩
    rcases ofPrimes_cases test p q with ⟨hcoprime, mu, -, -, heq⟩ | ⟨fault, -, herror⟩
    · obtain ⟨hp, hq, hne, hsize, -, -⟩ := (exists_ofParts_iff exact).mp ⟨sk, heq ▸ hsk⟩
      exact ⟨hp, hq, hne, hsize, (coprime_lcm_pred_iff hp hq).mp hcoprime⟩
    · rw [hsk] at herror
      cases herror
  · rintro ⟨hp, hq, hne, hsize, hdvd⟩
    obtain ⟨mu, -, hmu, heq⟩ :=
      ofPrimes_of_coprime test hp.ne_zero hq.ne_zero ((coprime_lcm_pred_iff hp hq).mpr hdvd)
    rw [heq, exists_ofParts_iff exact]
    exact ⟨hp, hq, hne, hsize, rfl, hmu⟩

theorem ofParts_eq_error (exact : ExactTest test) {error : Error}
    (h : ofParts test p q lambda mu = .error error) :
    ∃ fault ≠ KeyFault.squareNotInvertible, error = .keyState fault := by
  rcases ofParts_cases exact p q lambda mu with hparts | ⟨fault, hne, herror⟩
  · obtain ⟨sk, hsk, -⟩ := hparts.exists_ofParts exact
    rw [hsk] at h
    cases h
  · exact ⟨fault, hne, Except.error.inj (h.symm.trans herror)⟩

theorem ofPrimes_eq_error (exact : ExactTest test) {error : Error}
    (h : ofPrimes test p q = .error error) :
    ∃ fault ≠ KeyFault.squareNotInvertible, error = .keyState fault := by
  rcases ofPrimes_cases test p q with ⟨-, mu, -, -, heq⟩ | ⟨fault, hne, herror⟩
  · exact ofParts_eq_error exact (heq ▸ h)
  · exact ⟨fault, hne, Except.error.inj (h.symm.trans herror)⟩

theorem crossTerm_modEq (exact : ExactTest test) {sk : SecretKey}
    (h : ofParts test p q lambda mu = .ok sk) :
    sk.p.value = p ∧ sk.q.value = q ∧ sk.crossTerm ≡ 1 [MOD p ^ 2] ∧
      sk.crossTerm ≡ 0 [MOD q ^ 2] := by
  obtain ⟨rfl, rfl, -, -, hsound, -⟩ := ofParts_eq_ok exact h
  refine ⟨rfl, rfl, ?_, ?_⟩
  · rw [sq, ← ZMod.natCast_eq_natCast_iff, hsound.crossTerm_p, Nat.cast_one]
  · rw [sq, ← ZMod.natCast_eq_natCast_iff, hsound.crossTerm_q, Nat.cast_zero]

/-- As `ofParts`, with each predecessor and each modulus made as a step that may fail; there is no
value if a predecessor of zero is asked for. -/
def checkedOfParts (test : ℕ → Bool) (p q lambda mu : ℕ) : Option (Except Error SecretKey) :=
  if p = 0 ∨ q = 0 then some (.error (.keyState .zeroPrime))
  else if p = q then some (.error (.keyState .equalPrimes))
  else if ¬ (isProbablePrime test p = true ∧ isProbablePrime test q = true) then
    some (.error (.keyState .compositePrime))
  else if bitLength (p * q) < Limits.minKeySize then
    some (.error (.keyState (.shortModulus (bitLength (p * q)))))
  else do
    let predP ← p.ppred
    let predQ ← q.ppred
    if lambda ≠ Nat.lcm predP predQ then return .error (.keyState .wrongLambda)
    if lambda * mu % (p * q) ≠ 1 then return .error (.keyState .wrongMu)
    return do
      let squareP ← Modulus.of (p * p)
      let squareQ ← Modulus.of (q * q)
      let _ ← Modulus.of (p * q * (p * q))
      match modInverse? squareQ.value squareP.value with
      | none => throw (.keyState .squareNotInvertible)
      | some inverse =>
        let _ ← Modulus.of (p * q)
        return {
          p := ← Modulus.of p, q := ← Modulus.of q, lambda, mu
          crossTerm := inverse * squareQ.value }

def checkedOfPrimes (test : ℕ → Bool) (p q : ℕ) : Option (Except Error SecretKey) :=
  if p = 0 ∨ q = 0 then some (.error (.keyState .zeroPrime))
  else do
    let lambda := Nat.lcm (← p.ppred) (← q.ppred)
    match modInverse? lambda (p * q) with
    | none => return .error (.keyState .lambdaNotInvertible)
    | some mu => checkedOfParts test p q lambda mu

theorem ppred_of_ne_zero {n : ℕ} (h : n ≠ 0) : n.ppred = some (n - 1) :=
  Nat.ppred_eq_pred (Nat.pos_of_ne_zero h)

theorem checkedOfParts_eq (test : ℕ → Bool) (p q lambda mu : ℕ) :
    checkedOfParts test p q lambda mu = some (ofParts test p q lambda mu) := by
  by_cases hzero : p = 0 ∨ q = 0
  · rw [checkedOfParts, ofParts, if_pos hzero, if_pos hzero]
  by_cases hne : p = q
  · rw [checkedOfParts, ofParts, if_neg hzero, if_neg hzero, if_pos hne, if_pos hne]
  rw [checkedOfParts, ofParts, if_neg hzero, if_neg hzero, if_neg hne, if_neg hne]
  by_cases hp : isProbablePrime test p = true
  swap
  · simp [hp, Modulus.ofPrime?]
  by_cases hq : isProbablePrime test q = true
  swap
  · simp [hp, hq, Modulus.ofPrime?]
  -- A number that passes the test exceeds one, so from here on every predecessor and modulus exists.
  have honeP : 1 < p := two_le_of_isProbablePrime hp
  have honeQ : 1 < q := two_le_of_isProbablePrime hq
  obtain ⟨hp0, hq0⟩ := not_or.mp hzero
  have hmul {m n : ℕ} (hm : 1 < m) (hn : 1 < n) : 1 < m * n := Nat.one_lt_mul_iff.mpr (by omega)
  have hofP : Modulus.ofPrime? test p = some ⟨p, honeP⟩ := dif_pos hp
  have hofQ : Modulus.ofPrime? test q = some ⟨q, honeQ⟩ := dif_pos hq
  rw [if_neg (not_not.mpr ⟨hp, hq⟩), hofP, hofQ, ppred_of_ne_zero hp0, ppred_of_ne_zero hq0,
    Modulus.of_eq_ok (hmul honeP honeP), Modulus.of_eq_ok (hmul honeQ honeQ),
    Modulus.of_eq_ok (hmul (hmul honeP honeQ) (hmul honeP honeQ)), Modulus.of_eq_ok (hmul honeP honeQ),
    Modulus.of_eq_ok honeP, Modulus.of_eq_ok honeQ]
  simp only [Option.bind_eq_bind, Option.bind_some]
  split_ifs
  · rfl
  · rfl
  · rfl
  · simp only [bind, Except.bind]
    cases modInverse? (q * q) (p * p) <;> rfl

theorem checkedOfPrimes_eq (test : ℕ → Bool) (p q : ℕ) :
    checkedOfPrimes test p q = some (ofPrimes test p q) := by
  by_cases hzero : p = 0 ∨ q = 0
  · rw [checkedOfPrimes, ofPrimes, if_pos hzero, if_pos hzero]
  obtain ⟨hp, hq⟩ := not_or.mp hzero
  rw [checkedOfPrimes, ofPrimes, if_neg hzero, if_neg hzero, ppred_of_ne_zero hp, ppred_of_ne_zero hq]
  simp only [Option.bind_eq_bind, Option.bind_some]
  cases modInverse? (Nat.lcm (p - 1) (q - 1)) (p * q) with
  | none => rfl
  | some mu => exact checkedOfParts_eq test p q _ mu

theorem accepted_iff_sound (exact : ExactTest test) (p q lambda mu : ℕ) :
    ((∃ sk, ofParts test p q lambda mu = .ok sk) ↔
      p.Prime ∧ q.Prime ∧ p ≠ q ∧ Limits.minKeySize ≤ bitLength (p * q) ∧
        lambda = Nat.lcm (p - 1) (q - 1) ∧ lambda * mu ≡ 1 [MOD p * q]) ∧
    ((∃ sk, ofPrimes test p q = .ok sk) ↔
      p.Prime ∧ q.Prime ∧ p ≠ q ∧ Limits.minKeySize ≤ bitLength (p * q) ∧ ¬ p ∣ q - 1 ∧
        ¬ q ∣ p - 1) ∧
    (∀ sk, ofPrimes test p q = .ok sk → ∃ inverse < p * q,
      Nat.lcm (p - 1) (q - 1) * inverse ≡ 1 [MOD p * q] ∧
        ofParts test p q (Nat.lcm (p - 1) (q - 1)) inverse = .ok sk) ∧
    (∀ error, ofParts test p q lambda mu = .error error ∨ ofPrimes test p q = .error error →
      ∃ fault ≠ KeyFault.squareNotInvertible, error = .keyState fault) ∧
    checkedOfParts test p q lambda mu = some (ofParts test p q lambda mu) ∧
    checkedOfPrimes test p q = some (ofPrimes test p q) ∧
    ∀ sk, ofParts test p q lambda mu = .ok sk ∨ ofPrimes test p q = .ok sk →
      sk.p.value = p ∧ sk.q.value = q ∧ sk.crossTerm ≡ 1 [MOD p ^ 2] ∧
        sk.crossTerm ≡ 0 [MOD q ^ 2] := by
  have hinverse (sk : SecretKey) (h : ofPrimes test p q = .ok sk) := exists_ofParts_of_ofPrimes h
  refine ⟨?_, exists_ofPrimes_iff exact, hinverse, ?_, checkedOfParts_eq test p q lambda mu,
    checkedOfPrimes_eq test p q, ?_⟩
  · rw [exists_ofParts_iff exact, soundParts_iff]
  · rintro error (h | h)
    · exact ofParts_eq_error exact h
    · exact ofPrimes_eq_error exact h
  · rintro sk (h | h)
    · exact crossTerm_modEq exact h
    · obtain ⟨inverse, -, -, hparts⟩ := hinverse sk h
      exact crossTerm_modEq exact hparts

theorem accepted_seven_mersenne : ∃ q sk sk', q = mersenne 521 ∧
    ofParts (fun n => decide n.Prime) 7 q (q - 1) (4 * q - 1) = .ok sk ∧
    sk.crossTerm ≡ 1 [MOD 7 ^ 2] ∧ sk.crossTerm ≡ 0 [MOD q ^ 2] ∧
    ofPrimes (fun n => decide n.Prime) 7 q = .ok sk' ∧
    ¬ ∃ sk, ofPrimes (fun n => decide n.Prime) 1 0 = .ok sk := by
  obtain ⟨q, sk, hq, hlarge, hprime, hsk⟩ := exists_ofParts_seven_mersenne
  obtain ⟨hparts, hprimes, -, -, -, -, hcross⟩ :=
    accepted_iff_sound exactTest_decide 7 q (q - 1) (4 * q - 1)
  obtain ⟨-, -, hone, hzero⟩ := hcross sk (.inl hsk)
  obtain ⟨hseven, -, hne, hsize, -, -⟩ := hparts.mp ⟨sk, hsk⟩
  have hdvd : ¬ 7 ∣ q - 1 := by
    rw [hq]
    decide +kernel
  have hdvd' : ¬ q ∣ 7 - 1 := Nat.not_dvd_of_pos_of_lt (by decide) (by omega)
  obtain ⟨sk', hsk'⟩ := hprimes.mpr ⟨hseven, hprime, hne, hsize, hdvd, hdvd'⟩
  refine ⟨q, sk, sk', hq, hsk, hone, hzero, hsk', fun hok => ?_⟩
  obtain ⟨hone, -⟩ := (accepted_iff_sound exactTest_decide 1 0 0 0).2.1.mp hok
  exact Nat.not_prime_one hone

end Homomorphic.Paillier.SecretKey
