import Homomorphic.Proofs.OkamotoUchiyama.KeyGeneration

namespace Homomorphic.OkamotoUchiyama

open Draw Entropy

structure GeneratedKeys (keySize : ℕ) (sk : SecretKey) (pk : PublicKey) : Prop where
  bits : bitLength pk.n.value = keySize
  n_value : sk.n.value = sk.p.value ^ 2 * sk.q.value
  n_eq : pk.n = sk.n
  prime_p : sk.p.value.Prime
  prime_q : sk.q.value.Prime
  ne : sk.p.value ≠ sk.q.value
  bits_p : bitLength sk.p.value = ceilDiv keySize 3
  bits_q : bitLength sk.q.value = keySize - 2 * ceilDiv keySize 3
  unit_g : 0 < pk.g ∧ pk.g < sk.n.value ∧ Nat.Coprime pk.g sk.n.value
  unit_h : 0 < pk.h ∧ pk.h < sk.n.value ∧ Nat.Coprime pk.h sk.n.value
  h_eq : pk.h = pk.g ^ sk.n.value % sk.n.value
  order : pk.g ^ (sk.p.value - 1) % sk.p.value ^ 2 ≠ 1
  inverse : sk.gpInv * ((pk.g ^ (sk.p.value - 1) % sk.p.value ^ 2 - 1) / sk.p.value) ≡ 1
    [MOD sk.p.value]
  bound_eq : pk.bound = 2 ^ (ceilDiv (bitLength sk.n.value) 3 - 2)
  bound_lt : pk.bound < sk.p.value / 2

variable {test : ℕ → Bool} {keySize : ℕ} {sk : SecretKey} {pk : PublicKey} {e e' : Entropy}

theorem PublicKey.bound_eq (pk : PublicKey) :
    pk.bound = 2 ^ (ceilDiv (bitLength pk.n.value) 3 - 2) := by
  rw [bound, boundFor, Nat.one_shiftLeft]

theorem two_pow_lt_half {width p : ℕ} (hwidth : 3 ≤ width) (hp : TopPrime width p) :
    2 ^ (width - 2) < p / 2 := by
  have hlow := hp.low
  -- The two top bits of the prime are set, so its half is at least three times this power.
  have hdouble : 2 ^ (width - 2) = 2 * 2 ^ (width - 3) := by
    rw [← pow_succ']
    congr 1
    omega
  have hpos := Nat.two_pow_pos (width - 3)
  omega

theorem KeyPair.generatedKeys (exact : ExactTest test) (h : KeyPair test keySize sk pk) :
    GeneratedKeys keySize sk pk := by
  obtain ⟨-, -, -, hp, hq, hne⟩ := SecretKey.ofParts_eq_ok exact h.parts
  obtain ⟨hfirst, hsecond⟩ := minPrimeBits_le h.size
  rw [Limits.minPrimeBits] at hfirst hsecond
  have unit {x : ℕ} (hx : pk.n.contains x = true ∧ Nat.gcd x pk.n.value = 1) :
      0 < x ∧ x < sk.n.value ∧ Nat.Coprime x sk.n.value := by
    rw [h.n_eq] at hx
    obtain ⟨hpos, hlt⟩ := (Modulus.contains_iff _ _).mp hx.1
    exact ⟨hpos, hlt, hx.2⟩
  have hinverse := h.inverse
  rw [logarithm, shiftedQuotient, Modulus.natPow, powMod_eq, Modulus.square_value, ← sq] at hinverse
  exact {
    bits := h.bits
    n_value := by rw [SecretKey.n_value, sq]
    n_eq := h.n_eq
    prime_p := hp
    prime_q := hq
    ne := hne
    bits_p := h.topP.bitLength_eq (by omega)
    bits_q := h.topQ.bitLength_eq (by omega)
    unit_g := unit pk.unitG
    unit_h := unit pk.unitH
    h_eq := h.h_eq
    order := by
      rw [sq]
      exact h.order
    inverse := hinverse
    bound_eq := by rw [PublicKey.bound_eq, h.n_eq]
    bound_lt := by
      rw [PublicKey.bound_eq, h.bits]
      exact two_pow_lt_half (by omega) h.topP }

theorem generate_ends (exact : ExactTest test) (keySize : ℕ) (e : Entropy) :
    ((∃ fault, ((generate test keySize).outcome e).1 = .error (.invalidParameters fault)) ↔
      keySize < Limits.minKeySize) ∧
    (Limits.minKeySize ≤ keySize →
      (∃ fault, ((generate test keySize).outcome e).1 = .error (.keyGeneration fault)) ∨
      (∃ fault, ((generate test keySize).outcome e).1 = .error (.randomnessExhausted fault)) ∨
      ∃ sk pk, ((generate test keySize).outcome e).1 = .ok (sk, pk) ∧
        GeneratedKeys keySize sk pk) := by
  rcases lt_or_ge keySize Limits.minKeySize with hsize | hsize
  · rw [outcome_generate_of_undersized hsize]
    exact ⟨iff_of_true ⟨_, rfl⟩ hsize, fun h => absurd hsize (Nat.not_lt.mpr h)⟩
  have hends := ensures_generate exact hsize e
  generalize ((generate test keySize).outcome e).1 = result at hends ⊢
  rcases result with error | ⟨sk, pk⟩
  · have herror : DrawError error := hends
    cases herror with
    | keyGeneration fault =>
      exact ⟨iff_of_false (by simp) (Nat.not_lt.mpr hsize), fun _ => .inl ⟨fault, rfl⟩⟩
    | randomnessExhausted fault =>
      exact ⟨iff_of_false (by simp) (Nat.not_lt.mpr hsize), fun _ => .inr (.inl ⟨fault, rfl⟩)⟩
  · have hpair : KeyPair test keySize sk pk := hends
    exact ⟨iff_of_false (by simp) (Nat.not_lt.mpr hsize),
      fun _ => .inr (.inr ⟨sk, pk, rfl, hpair.generatedKeys exact⟩)⟩

theorem outcome_keyCandidate_of_unit (exact : ExactTest test) (hsize : Limits.minKeySize ≤ keySize)
    {p q g : ℕ} {e₁ e₂ e₃ : Entropy} (hp : (prime test (ceilDiv keySize 3)).outcome e = (.ok p, e₁))
    (hq : (prime test (keySize - 2 * ceilDiv keySize 3)).outcome e₁ = (.ok q, e₂)) (hne : p ≠ q)
    (hbits : bitLength (p * p * q) = keySize) (hg : (unit (p * p * q)).outcome e₂ = (.ok g, e₃))
    (horder : g ^ (p - 1) % (p * p) ≠ 1) :
    ∃ sk pk, (keyCandidate test keySize).outcome e = (.ok (some (sk, pk)), e₃) := by
  obtain ⟨hfirst, hsecond⟩ := minPrimeBits_le hsize
  have htopP := topPrime_of_outcome exact hfirst hp
  have htopQ := topPrime_of_outcome exact hsecond hq
  have hone : 1 < p * p * q := one_lt_mul_mul htopP.prime htopQ.prime
  obtain ⟨-, hlt, hcoprime⟩ := unit_of_outcome (zero_lt_one.trans hone) hg
  have hpow : ¬ (⟨p, htopP.prime.one_lt⟩ : Modulus).square.natPow g (p - 1) = 1 := by
    rw [Modulus.natPow, powMod_eq]
    exact horder
  obtain ⟨gpInv, sk, pk, hinv, hsk, hpk, -⟩ := exists_keyPair exact hsize
    (p := ⟨p, htopP.prime.one_lt⟩) (n := ⟨p * p * q, hone⟩) htopP htopQ hne rfl hbits hlt hcoprime
    hpow
  refine ⟨sk, pk, ?_⟩
  rw [keyCandidate, outcome_bind_of_ok _ hp, outcome_bind_of_ok _ hq, if_neg hne,
    outcome_lift_bind_of_ok _ (Modulus.of_eq_ok htopP.prime.one_lt),
    outcome_lift_bind_of_ok _ (Modulus.of_eq_ok hone), if_neg (not_not.mpr hbits),
    outcome_bind_of_ok _ hg, if_neg hpow, outcome_lift_bind_of_ok _ hinv,
    outcome_lift_bind_of_ok _ hsk, outcome_lift_bind_of_ok _ hpk]
  rfl

def largePrime : ℕ := 2 ^ 55 * 3 ^ 60 * 5 ^ 9 + 1

def smallPrime : ℕ := 2 ^ 29 * 3 ^ 45 * 5 ^ 30 + 1

theorem prime_largePrime : largePrime.Prime :=
  prime_of_factors 19 [2, 3, 5] (by decide +kernel) (by decide +kernel) (by decide +kernel)
    ⟨60, by decide +kernel⟩

theorem prime_smallPrime : smallPrime.Prime :=
  prime_of_factors 11 [2, 3, 5] (by decide +kernel) (by decide +kernel) (by decide +kernel)
    ⟨45, by decide +kernel⟩

def keyStream : Entropy :=
  .ofBytes (Bytes.ofNat 22 largePrime ++ Bytes.ofNat 22 smallPrime ++ Bytes.ofNat 64 2)

theorem generate_ends_keyStream :
    (∃ sk pk, ((generate (fun n => decide n.Prime) 512).outcome keyStream).1 = .ok (sk, pk) ∧
      GeneratedKeys 512 sk pk) ∧
    ∃ fault, ((generate (fun n => decide n.Prime) 511).outcome keyStream).1 =
      .error (.invalidParameters fault) := by
  have hp : (prime (fun n => decide n.Prime) (ceilDiv 512 3)).outcome keyStream =
      (.ok largePrime, { keyStream with used := 22 }) :=
    outcome_prime_of_first exactTest_decide (by decide) prime_largePrime (by decide +kernel)
  have hq : (prime (fun n => decide n.Prime) (512 - 2 * ceilDiv 512 3)).outcome
      { keyStream with used := 22 } = (.ok smallPrime, { keyStream with used := 44 }) :=
    outcome_prime_of_first exactTest_decide (by decide) prime_smallPrime (by decide +kernel)
  obtain ⟨e₃, hg⟩ : ∃ e₃, (unit (largePrime * largePrime * smallPrime)).outcome
      { keyStream with used := 44 } = (.ok 2, e₃) :=
    ⟨_, outcome_unit_of_first two_pos (by decide +kernel) (by decide +kernel) (by decide +kernel)⟩
  have horder : 2 ^ (largePrime - 1) % (largePrime * largePrime) ≠ 1 := by
    rw [← powMod_eq]
    decide +kernel
  obtain ⟨sk, pk, hpair⟩ := outcome_keyCandidate_of_unit exactTest_decide (by decide) hp hq
    (by decide +kernel) (by decide +kernel) hg horder
  have hgenerate : ((generate (fun n => decide n.Prime) 512).outcome keyStream).1 = .ok (sk, pk) := by
    rw [generate, if_neg (by decide), outcome_retry_of_some (by decide) (.none _) hpair]
  obtain ⟨-, hends⟩ := generate_ends exactTest_decide 512 keyStream
  refine ⟨?_, (generate_ends exactTest_decide 511 keyStream).1.mpr (by decide)⟩
  rw [hgenerate] at hends ⊢
  rcases hends (by decide) with ⟨fault, hfault⟩ | ⟨fault, hfault⟩ | hkeys
  · cases hfault
  · cases hfault
  · exact hkeys

end Homomorphic.OkamotoUchiyama
