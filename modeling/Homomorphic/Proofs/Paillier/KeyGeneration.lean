import Homomorphic.Paillier.KeyGeneration
import Homomorphic.Proofs.Paillier.Acceptance
import Homomorphic.Proofs.Paillier.Power
import Homomorphic.Proofs.Sampling

namespace Homomorphic.Paillier

open Draw Entropy

structure Kept (keySize p q : ℕ) : Prop where
  size : Limits.minKeySize ≤ keySize
  top_p : TopPrime (ceilDiv keySize 2) p
  top_q : TopPrime (keySize / 2) q
  ne : p ≠ q
  gcd : Nat.gcd (p - 1) (q - 1) = 2

namespace Kept

variable {keySize p q : ℕ}

theorem bounds (h : Kept keySize p q) :
    ∃ x, 0 < x ∧ 3 * x ≤ q ∧ q < 4 * x ∧
      (keySize % 2 = 0 ∧ 3 * x ≤ p ∧ p < 4 * x ∨ keySize % 2 = 1 ∧ 6 * x ≤ p ∧ p < 8 * x) := by
  have hsize := h.size
  rw [Limits.minKeySize] at hsize
  have hwidth : 2 ^ (keySize / 2) = 4 * 2 ^ (keySize / 2 - 2) := by
    rw [show 4 = 2 ^ 2 from rfl, ← pow_add]
    congr 1
    omega
  refine ⟨2 ^ (keySize / 2 - 2), Nat.two_pow_pos _, h.top_q.low, hwidth ▸ h.top_q.lt, ?_⟩
  have hlow := h.top_p.low
  have hlt := h.top_p.lt
  by_cases hparity : keySize % 2 = 0
  · left
    have hceil : ceilDiv keySize 2 = keySize / 2 := by
      rw [ceilDiv]
      omega
    rw [hceil] at hlow hlt
    exact ⟨hparity, hlow, hwidth ▸ hlt⟩
  · right
    have hceil : ceilDiv keySize 2 = keySize / 2 + 1 := by
      rw [ceilDiv]
      omega
    have hdouble : 2 ^ (keySize / 2 + 1 - 2) = 2 * 2 ^ (keySize / 2 - 2) := by
      rw [← pow_succ']
      congr 1
      omega
    rw [hceil, hdouble] at hlow
    rw [hceil, pow_succ, hwidth] at hlt
    exact ⟨by omega, by omega, by omega⟩

theorem odd_keySize (h : Kept keySize p q) (hpq : p = 2 * q + 1) : keySize % 2 = 1 := by
  obtain ⟨x, hx, hq, -, hp⟩ := h.bounds
  omega

theorem not_dvd_pred_q (h : Kept keySize p q) : ¬ p ∣ q - 1 := by
  rintro ⟨k, hk⟩
  obtain ⟨x, hx, hlow, hlt, hp⟩ := h.bounds
  have hodd := h.top_p.odd
  have hodd' := h.top_q.odd
  -- The widths leave room for one multiple only, which has the wrong parity.
  rcases k with _ | _ | k
  · omega
  · omega
  · have hmul : p * (k + 1 + 1) = p * k + 2 * p := by ring
    omega

theorem dvd_pred_p_iff (h : Kept keySize p q) : q ∣ p - 1 ↔ p = 2 * q + 1 := by
  constructor
  · rintro ⟨k, hk⟩
    obtain ⟨x, hx, hlow, hlt, hp⟩ := h.bounds
    have hodd := h.top_p.odd
    have hodd' := h.top_q.odd
    -- Of the two multiples that the widths leave room for the first has the wrong parity.
    rcases k with _ | _ | _ | k
    · omega
    · omega
    · omega
    · have hmul : q * (k + 1 + 1 + 1) = q * k + 3 * q := by ring
      omega
  · rintro rfl
    exact ⟨2, by omega⟩

theorem coprime_iff (h : Kept keySize p q) :
    Nat.Coprime (p * q) ((p - 1) * (q - 1)) ↔ p ≠ 2 * q + 1 := by
  have hself {r : ℕ} (hr : r.Prime) : Nat.Coprime r (r - 1) := by
    have htwo := hr.two_le
    exact hr.coprime_iff_not_dvd.mpr (Nat.not_dvd_of_pos_of_lt (by omega) (by omega))
  have hq : Nat.Coprime q (p - 1) ↔ p ≠ 2 * q + 1 := by
    rw [h.top_q.prime.coprime_iff_not_dvd, h.dvd_pred_p_iff]
  rw [Nat.coprime_mul_iff_left, Nat.coprime_mul_iff_right, Nat.coprime_mul_iff_right, hq]
  constructor
  · exact fun hcoprime => hcoprime.2.1
  · intro hne
    exact ⟨⟨hself h.top_p.prime, h.top_p.prime.coprime_iff_not_dvd.mpr h.not_dvd_pred_q⟩, hne,
      hself h.top_q.prime⟩

theorem bitLength_mul (h : Kept keySize p q) : bitLength (p * q) = keySize := by
  have hsize := h.size
  rw [Limits.minKeySize] at hsize
  rw [h.top_p.bitLength_mul (by rw [ceilDiv]; omega) (by omega) h.top_q, ceilDiv]
  omega

end Kept

namespace SecretKey

variable {test : ℕ → Bool} {keySize p q : ℕ}

theorem ofPrimes_of_ne (exact : ExactTest test) (h : Kept keySize p q) (hne : p ≠ 2 * q + 1) :
    ∃ sk, ofPrimes test p q = .ok sk ∧ sk.p.value = p ∧ sk.q.value = q ∧ sk.Sound := by
  obtain ⟨sk, hsk⟩ := (exists_ofPrimes_iff exact).mpr ⟨h.top_p.prime, h.top_q.prime, h.ne,
    h.bitLength_mul ▸ h.size, h.not_dvd_pred_q, mt h.dvd_pred_p_iff.mp hne⟩
  obtain ⟨mu, -, -, hparts⟩ := exists_ofParts_of_ofPrimes hsk
  obtain ⟨hp, hq, -, -, hsound, -⟩ := ofParts_eq_ok exact hparts
  exact ⟨sk, hsk, hp, hq, hsound⟩

theorem ofPrimes_of_eq (h : Kept keySize p q) (hpq : p = 2 * q + 1) :
    ofPrimes test p q = .error (.keyState .lambdaNotInvertible) := by
  apply ofPrimes_of_not_coprime test h.top_p.prime.ne_zero h.top_q.prime.ne_zero
  rw [coprime_lcm_pred_iff h.top_p.prime h.top_q.prime]
  exact fun hdvd => hdvd.2 (h.dvd_pred_p_iff.mpr hpq)

theorem coprime_neg_square (m : Modulus) {x : ℕ} (hx : Nat.Coprime x m.value) :
    Nat.Coprime (m.neg (m.mul x x)) m.value := by
  rw [← ZMod.isUnit_iff_coprime] at hx ⊢
  rw [Modulus.cast_neg (ZMod.natCast_self _), Modulus.cast_mul (ZMod.natCast_self _)]
  exact (hx.mul hx).neg

theorem powSquare_neg_square {sk : SecretKey} (h : sk.Sound) {x : ℕ} (hx : Nat.Coprime x sk.n.value) :
    sk.powSquare (sk.n.neg (sk.n.mul x x)) sk.n.value =
      sk.n.neg (sk.n.mul x x) ^ sk.n.value % sk.n.value ^ 2 := by
  rw [sq]
  exact powSquare_of_coprime h (coprime_neg_square sk.n hx) sk.n.value

theorem exists_blinding {sk : SecretKey} (h : sk.Sound) (hodd : sk.n.value % 2 = 1)
    (hsize : Limits.minKeySize ≤ bitLength sk.n.value) {x : ℕ} (hx : Nat.Coprime x sk.n.value) :
    ∃ pk, PublicKey.ofParts sk.n.value (sk.powSquare (sk.n.neg (sk.n.mul x x)) sk.n.value) = .ok pk ∧
      pk.n = sk.n ∧ ∃ h, Nat.Coprime h sk.n.value ∧ pk.hs = h ^ sk.n.value % sk.n.value ^ 2 := by
  have hunit := coprime_neg_square sk.n hx
  obtain ⟨pk, hpk, hn, hhs⟩ := PublicKey.exists_ofParts_residue hodd hsize hunit
  exact ⟨pk, powSquare_neg_square h hx ▸ hpk, Modulus.ext hn, _, hunit, hhs⟩

end SecretKey

section Attempt

variable {test : ℕ → Bool} {keySize p q : ℕ} {e e₁ e₂ : Entropy}

def Draws (test : ℕ → Bool) (keySize : ℕ) (e : Entropy) (p q : ℕ) (e₂ : Entropy) : Prop :=
  ∃ e₁, (prime test (ceilDiv keySize 2)).outcome e = (.ok p, e₁) ∧
    (prime test (keySize / 2)).outcome e₁ = (.ok q, e₂)

structure KeyPair (keySize p q : ℕ) (sk : SecretKey) (pk : PublicKey) : Prop where
  sound : sk.Sound
  p_eq : sk.p.value = p
  q_eq : sk.q.value = q
  n_eq : pk.n = sk.n
  bits : bitLength pk.n.value = keySize
  blinding : ∃ h, Nat.Coprime h sk.n.value ∧ pk.hs = h ^ sk.n.value % sk.n.value ^ 2

inductive AttemptEnds (test : ℕ → Bool) (keySize : ℕ) (e : Entropy) :
    Except Error (Option (SecretKey × PublicKey)) → Prop
  | discarded {p q e'} (hdraws : Draws test keySize e p q e')
    (h : p = q ∨ Nat.gcd (p - 1) (q - 1) ≠ 2) : AttemptEnds test keySize e (.ok none)
  | pair {p q e' sk pk} (hdraws : Draws test keySize e p q e') (hkept : Kept keySize p q)
    (hne : p ≠ 2 * q + 1) (h : KeyPair keySize p q sk pk) :
    AttemptEnds test keySize e (.ok (some (sk, pk)))
  | firstPrime {e'} (hrun : Fruitless (primeCandidate test (ceilDiv keySize 2))
      Limits.maxPrimeCandidates e e') :
    AttemptEnds test keySize e (.error (.keyGeneration (.prime (ceilDiv keySize 2))))
  | secondPrime {p e₁ e'} (hfirst : (prime test (ceilDiv keySize 2)).outcome e = (.ok p, e₁))
    (hrun : Fruitless (primeCandidate test (keySize / 2)) Limits.maxPrimeCandidates e₁ e') :
    AttemptEnds test keySize e (.error (.keyGeneration (.prime (keySize / 2))))
  | unit {p q e' fault} (hdraws : Draws test keySize e p q e') (hkept : Kept keySize p q)
    (hne : p ≠ 2 * q + 1) (hrun : UnitRunsOut (p * q) e' fault) :
    AttemptEnds test keySize e (.error (.randomnessExhausted fault))
  | safePrime {q e'} (hdraws : Draws test keySize e (2 * q + 1) q e')
    (hkept : Kept keySize (2 * q + 1) q) :
    AttemptEnds test keySize e (.error (.keyState .lambdaNotInvertible))

theorem outcome_keyCandidate_of_discarded (hdraws : Draws test keySize e p q e₂)
    (h : p = q ∨ Nat.gcd (p - 1) (q - 1) ≠ 2) :
    (keyCandidate test keySize).outcome e = (.ok none, e₂) := by
  obtain ⟨e₁, hp, hq⟩ := hdraws
  rw [keyCandidate, outcome_bind_of_ok _ hp, outcome_bind_of_ok _ hq, if_pos h]
  rfl

theorem outcome_keyCandidate_of_kept (hdraws : Draws test keySize e p q e₂)
    (hkept : Kept keySize p q) :
    (keyCandidate test keySize).outcome e =
      (do
        let sk ← SecretKey.ofPrimes test p q
        let x ← Entropy.unit sk.n.value
        let pk ← PublicKey.ofParts sk.n.value
          (sk.powSquare (sk.n.neg (sk.n.mul x x)) sk.n.value)
        return some (sk, pk) : Draw (Option (SecretKey × PublicKey))).outcome e₂ := by
  obtain ⟨e₁, hp, hq⟩ := hdraws
  have hnot : ¬ (p = q ∨ Nat.gcd (p - 1) (q - 1) ≠ 2) :=
    not_or.mpr ⟨hkept.ne, not_not.mpr hkept.gcd⟩
  rw [keyCandidate, outcome_bind_of_ok _ hp, outcome_bind_of_ok _ hq, if_neg hnot]

theorem outcome_keyCandidate_of_safePrime (hdraws : Draws test keySize e (2 * q + 1) q e₂)
    (hkept : Kept keySize (2 * q + 1) q) :
    (keyCandidate test keySize).outcome e = (.error (.keyState .lambdaNotInvertible), e₂) := by
  have hfail : (liftM (SecretKey.ofPrimes test (2 * q + 1) q) : Draw SecretKey).outcome e₂ =
      (.error (.keyState .lambdaNotInvertible), e₂) := by
    rw [SecretKey.ofPrimes_of_eq hkept rfl]
    rfl
  rw [outcome_keyCandidate_of_kept hdraws hkept, outcome_bind_of_error _ hfail]

theorem minPrimeBits_le (hsize : Limits.minKeySize ≤ keySize) :
    Limits.minPrimeBits ≤ ceilDiv keySize 2 ∧ Limits.minPrimeBits ≤ keySize / 2 := by
  rw [Limits.minKeySize] at hsize
  rw [Limits.minPrimeBits, ceilDiv]
  omega

theorem kept_of_draws (exact : ExactTest test) (hsize : Limits.minKeySize ≤ keySize)
    (hdraws : Draws test keySize e (2 * q + 1) q e₂) : Kept keySize (2 * q + 1) q := by
  obtain ⟨e₁, hp, hq⟩ := hdraws
  obtain ⟨hfirst, hsecond⟩ := minPrimeBits_le hsize
  have htop := topPrime_of_outcome exact hsecond hq
  refine ⟨hsize, topPrime_of_outcome exact hfirst hp, htop, by omega, ?_⟩
  have hodd := htop.odd
  obtain ⟨m, rfl⟩ : ∃ m, q = 2 * m + 1 := ⟨q / 2, by omega⟩
  rw [Nat.add_sub_cancel, Nat.add_sub_cancel, Nat.gcd_mul_left]
  simp

theorem outcome_keyCandidate_of_key (hdraws : Draws test keySize e p q e₂)
    (hkept : Kept keySize p q) {sk : SecretKey} (hsk : SecretKey.ofPrimes test p q = .ok sk) :
    (keyCandidate test keySize).outcome e =
      (do
        let x ← unit sk.n.value
        let pk ← PublicKey.ofParts sk.n.value
          (sk.powSquare (sk.n.neg (sk.n.mul x x)) sk.n.value)
        return some (sk, pk) : Draw (Option (SecretKey × PublicKey))).outcome e₂ := by
  rw [outcome_keyCandidate_of_kept hdraws hkept, hsk]
  rfl

theorem outcome_keyCandidate_of_unit {x : ℕ} {e₃ : Entropy} (exact : ExactTest test)
    (hdraws : Draws test keySize e p q e₂) (hkept : Kept keySize p q) (hne : p ≠ 2 * q + 1)
    (hx : (unit (p * q)).outcome e₂ = (.ok x, e₃)) :
    ∃ sk pk, (keyCandidate test keySize).outcome e = (.ok (some (sk, pk)), e₃) ∧
      KeyPair keySize p q sk pk := by
  obtain ⟨sk, hsk, rfl, rfl, hsound⟩ := SecretKey.ofPrimes_of_ne exact hkept hne
  rw [← SecretKey.n_value] at hx
  have hodd : sk.n.value % 2 = 1 := by
    rw [SecretKey.n_value, Nat.mul_mod, hkept.top_p.odd, hkept.top_q.odd]
  have hbits : bitLength sk.n.value = keySize := hkept.bitLength_mul
  obtain ⟨-, -, hcoprime⟩ := unit_of_outcome sk.n.value_pos hx
  obtain ⟨pk, hpk, hn, hblinding⟩ :=
    SecretKey.exists_blinding hsound hodd (hbits.symm ▸ hkept.size) hcoprime
  refine ⟨sk, pk, ?_, hsound, rfl, rfl, hn, hn ▸ hbits, hblinding⟩
  rw [outcome_keyCandidate_of_key hdraws hkept hsk, outcome_bind_of_ok _ hx, hpk]
  rfl

theorem attemptEnds_of_kept (exact : ExactTest test) (hdraws : Draws test keySize e p q e₂)
    (hkept : Kept keySize p q) (hne : p ≠ 2 * q + 1) :
    AttemptEnds test keySize e ((keyCandidate test keySize).outcome e).1 := by
  obtain ⟨sk, hsk, rfl, rfl, -⟩ := SecretKey.ofPrimes_of_ne exact hkept hne
  rcases outcome_unit sk.n.value_pos e₂ with ⟨x, e₃, hx, -⟩ | ⟨fault, e₃, hrun, hfail⟩
  · obtain ⟨sk', pk, hpair, hkeys⟩ := outcome_keyCandidate_of_unit exact hdraws hkept hne hx
    rw [hpair]
    exact .pair hdraws hkept hne hkeys
  · rw [outcome_keyCandidate_of_key hdraws hkept hsk, outcome_bind_of_error _ hfail]
    exact .unit hdraws hkept hne hrun

theorem attemptEnds_keyCandidate (exact : ExactTest test) (hsize : Limits.minKeySize ≤ keySize)
    (e : Entropy) : AttemptEnds test keySize e ((keyCandidate test keySize).outcome e).1 := by
  obtain ⟨hfirst, hsecond⟩ := minPrimeBits_le hsize
  rcases outcome_prime exact hfirst e with ⟨p, e₁, hp, htop⟩ | ⟨e', hrun, hfail⟩
  swap
  · rw [keyCandidate, outcome_bind_of_error _ hfail]
    exact .firstPrime hrun
  rcases outcome_prime exact hsecond e₁ with ⟨q, e₂, hq, htop'⟩ | ⟨e', hrun, hfail⟩
  swap
  · rw [keyCandidate, outcome_bind_of_ok _ hp, outcome_bind_of_error _ hfail]
    exact .secondPrime hp hrun
  have hdraws : Draws test keySize e p q e₂ := ⟨e₁, hp, hq⟩
  by_cases hdiscarded : p = q ∨ Nat.gcd (p - 1) (q - 1) ≠ 2
  · rw [outcome_keyCandidate_of_discarded hdraws hdiscarded]
    exact .discarded hdraws hdiscarded
  rw [not_or, not_not] at hdiscarded
  have hkept : Kept keySize p q := ⟨hsize, htop, htop', hdiscarded.1, hdiscarded.2⟩
  by_cases hne : p = 2 * q + 1
  · subst hne
    rw [outcome_keyCandidate_of_safePrime hdraws hkept]
    exact .safePrime hdraws hkept
  exact attemptEnds_of_kept exact hdraws hkept hne

inductive GenerationEnds (test : ℕ → Bool) (keySize : ℕ) (e : Entropy) :
    Except Error (SecretKey × PublicKey) → Prop
  | undersized (h : keySize < Limits.minKeySize) :
    GenerationEnds test keySize e (.error (.invalidParameters (.keySize keySize)))
  | pair {k e' keys} (hsize : Limits.minKeySize ≤ keySize) (hk : k < Limits.maxKeygenAttempts)
    (hbefore : Fruitless (keyCandidate test keySize) k e e')
    (hlast : AttemptEnds test keySize e' (.ok (some keys))) : GenerationEnds test keySize e (.ok keys)
  | failed {k e' error} (hsize : Limits.minKeySize ≤ keySize) (hk : k < Limits.maxKeygenAttempts)
    (hbefore : Fruitless (keyCandidate test keySize) k e e')
    (hlast : AttemptEnds test keySize e' (.error error)) :
    GenerationEnds test keySize e (.error error)
  | attempts {e'} (hsize : Limits.minKeySize ≤ keySize)
    (hrun : Fruitless (keyCandidate test keySize) Limits.maxKeygenAttempts e e') :
    GenerationEnds test keySize e (.error (.keyGeneration (.suitable "Paillier primes")))

theorem generationEnds_generate (exact : ExactTest test) (keySize : ℕ) (e : Entropy) :
    GenerationEnds test keySize e ((generate test keySize).outcome e).1 := by
  by_cases hsize : keySize < Limits.minKeySize
  · rw [generate, if_pos hsize]
    exact .undersized hsize
  have hle := Nat.le_of_not_lt hsize
  rw [generate, if_neg hsize]
  rcases outcome_retry_cases (keyCandidate test keySize) (.keyGeneration (.suitable "Paillier primes"))
      Limits.maxKeygenAttempts e with ⟨k, hk, e', e'', keys, hbefore, hlast, hretry⟩ |
    ⟨k, hk, e', e'', error, hbefore, hlast, hretry⟩ | ⟨e', hrun, hretry⟩
  · have hends := attemptEnds_keyCandidate exact hle e'
    rw [hlast] at hends
    rw [hretry]
    exact .pair hle hk hbefore hends
  · have hends := attemptEnds_keyCandidate exact hle e'
    rw [hlast] at hends
    rw [hretry]
    exact .failed hle hk hbefore hends
  · rw [hretry]
    exact .attempts hle hrun

theorem outcome_generate_of_safePrime (exact : ExactTest test)
    (hsize : Limits.minKeySize ≤ keySize) {k : ℕ} (hk : k < Limits.maxKeygenAttempts)
    (hbefore : Fruitless (keyCandidate test keySize) k e e₁)
    (hdraws : Draws test keySize e₁ (2 * q + 1) q e₂) :
    (generate test keySize).outcome e = (.error (.keyState .lambdaNotInvertible), e₂) := by
  rw [generate, if_neg (Nat.not_lt.mpr hsize)]
  exact outcome_retry_of_error hk hbefore
    (outcome_keyCandidate_of_safePrime hdraws (kept_of_draws exact hsize hdraws))

end Attempt

def germainPrime : ℕ := 2 ^ 188 * 5 ^ 10 * 13 ^ 12 + 1

theorem prime_germainPrime : germainPrime.Prime :=
  prime_of_factors 6 [2, 5, 13] (by decide +kernel) (by decide +kernel) (by decide +kernel)
    ⟨188, by decide +kernel⟩

theorem prime_double_germainPrime : (2 * germainPrime + 1).Prime := by
  apply prime_of_powMod 2 (by decide +kernel) (by decide +kernel)
  intro r hr hdvd
  rw [Nat.add_sub_cancel, hr.dvd_mul] at hdvd
  rcases hdvd with hdvd | hdvd
  · rw [(Nat.prime_dvd_prime_iff_eq hr Nat.prime_two).mp hdvd]
    decide +kernel
  · rw [(Nat.prime_dvd_prime_iff_eq hr prime_germainPrime).mp hdvd]
    decide +kernel

def germainStream : Entropy :=
  .ofBytes (Bytes.ofNat 33 (2 * germainPrime + 1) ++ Bytes.ofNat 32 germainPrime)

theorem draws_germainStream {test : ℕ → Bool} (exact : ExactTest test) :
    Draws test 513 germainStream (2 * germainPrime + 1) germainPrime
      { germainStream with used := 65 } :=
  ⟨_, outcome_prime_of_first exact (by decide) prime_double_germainPrime (by decide +kernel),
    outcome_prime_of_first exact (by decide) prime_germainPrime (by decide +kernel)⟩

/-- Key generation ends with a key error just if an attempt draws a prime and one more than its
double, which takes an odd key size; of the pairs it keeps, those and no others make no keys. -/
theorem generate_outcome {test : ℕ → Bool} (exact : ExactTest test) (keySize : ℕ) (e : Entropy) :
    let result := ((generate test keySize).outcome e).1
    GenerationEnds test keySize e result ∧
      ((∃ fault, result = .error (.invalidParameters fault)) ↔ keySize < Limits.minKeySize) ∧
      ((∃ fault, result = .error (.keyState fault)) ↔
        Limits.minKeySize ≤ keySize ∧ ∃ k < Limits.maxKeygenAttempts, ∃ e₁ q e₂,
          Fruitless (keyCandidate test keySize) k e e₁ ∧
            Draws test keySize e₁ (2 * q + 1) q e₂) ∧
      (∀ value modulus, result ≠ .error (.noInverse value modulus)) ∧
      (∀ modulus, result ≠ .error (.invalidModulus modulus)) ∧
      ∀ p q, Kept keySize p q →
        (Nat.Coprime (p * q) ((p - 1) * (q - 1)) ↔ p ≠ 2 * q + 1) ∧
          ((∃ sk, SecretKey.ofPrimes test p q = .ok sk) ↔ p ≠ 2 * q + 1) ∧
          (p = 2 * q + 1 → keySize % 2 = 1) := by
  intro result
  have hends : GenerationEnds test keySize e result := generationEnds_generate exact keySize e
  refine ⟨hends, ?_, ?_, ?_, ?_, fun p q hkept => ⟨hkept.coprime_iff, ?_, hkept.odd_keySize⟩⟩
  · constructor
    · rintro ⟨fault, hfault⟩
      rw [hfault] at hends
      cases hends with
      | undersized h => exact h
      | failed _ _ _ hlast => cases hlast
    · intro hsize
      refine ⟨.keySize keySize, ?_⟩
      change ((generate test keySize).outcome e).1 = _
      rw [generate, if_pos hsize]
      rfl
  · constructor
    · rintro ⟨fault, hfault⟩
      rw [hfault] at hends
      cases hends with
      | failed hsize hk hbefore hlast =>
        cases hlast with
        | safePrime hdraws _ => exact ⟨hsize, _, hk, _, _, _, hbefore, hdraws⟩
    · rintro ⟨hsize, k, hk, e₁, q, e₂, hbefore, hdraws⟩
      refine ⟨.lambdaNotInvertible, ?_⟩
      change ((generate test keySize).outcome e).1 = _
      rw [outcome_generate_of_safePrime exact hsize hk hbefore hdraws]
  · intro value modulus hresult
    rw [hresult] at hends
    cases hends with
    | failed _ _ _ hlast => cases hlast
  · intro modulus hresult
    rw [hresult] at hends
    cases hends with
    | failed _ _ _ hlast => cases hlast
  · constructor
    · rintro ⟨sk, hsk⟩ hpq
      rw [SecretKey.ofPrimes_of_eq hkept hpq] at hsk
      cases hsk
    · intro hne
      obtain ⟨sk, hsk, -⟩ := SecretKey.ofPrimes_of_ne exact hkept hne
      exact ⟨sk, hsk⟩

theorem generate_outcome_germainPrime :
    Kept 513 (2 * germainPrime + 1) germainPrime ∧
      (¬ ∃ sk, SecretKey.ofPrimes (fun n => decide n.Prime) (2 * germainPrime + 1) germainPrime =
        .ok sk) ∧
      ∀ fault, ((generate (fun n => decide n.Prime) 512).outcome germainStream).1 ≠
        .error (.keyState fault) := by
  have hkept : Kept 513 (2 * germainPrime + 1) germainPrime :=
    kept_of_draws exactTest_decide (by decide) (draws_germainStream exactTest_decide)
  obtain ⟨-, -, -, -, -, hodd⟩ := generate_outcome exactTest_decide 513 germainStream
  obtain ⟨-, -, heven, -, -, hpairs⟩ := generate_outcome exactTest_decide 512 germainStream
  refine ⟨hkept, fun hsk => (hodd _ _ hkept).2.1.mp hsk rfl, fun fault hfault => ?_⟩
  obtain ⟨hsize, k, hk, e₁, q, e₂, hbefore, hdraws⟩ := heven.mp ⟨fault, hfault⟩
  have hparity := (hpairs _ _ (kept_of_draws exactTest_decide hsize hdraws)).2.2 rfl
  omega

theorem generate_germainStream :
    ((generate (fun n => decide n.Prime) 513).outcome germainStream).1 =
      .error (.keyState .lambdaNotInvertible) := by
  rw [outcome_generate_of_safePrime exactTest_decide (by decide) (by decide) (.none _)
    (draws_germainStream exactTest_decide)]

end Homomorphic.Paillier
