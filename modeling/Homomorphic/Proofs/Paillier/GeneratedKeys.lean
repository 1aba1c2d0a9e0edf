import Homomorphic.Proofs.Paillier.KeyGeneration

namespace Homomorphic.Paillier

open Draw Entropy

structure GeneratedKeys (keySize : ℕ) (sk : SecretKey) (pk : PublicKey) : Prop where
  bits : bitLength pk.n.value = keySize
  n_value : sk.n.value = sk.p.value * sk.q.value
  n_eq : pk.n = sk.n
  prime_p : sk.p.value.Prime
  prime_q : sk.q.value.Prime
  ne : sk.p.value ≠ sk.q.value
  bits_p : bitLength sk.p.value = ceilDiv keySize 2
  bits_q : bitLength sk.q.value = keySize / 2
  gcd : Nat.gcd (sk.p.value - 1) (sk.q.value - 1) = 2
  lambda_eq : sk.lambda = (sk.p.value - 1) * (sk.q.value - 1) / 2
  inverse : sk.lambda * sk.mu ≡ 1 [MOD sk.n.value]
  blinding : ∃ x h : ℕ, 0 < x ∧ x < sk.n.value ∧ Nat.Coprime x sk.n.value ∧
    (h : ℤ) = -(x : ℤ) ^ 2 % sk.n.value ∧ pk.hs = h ^ sk.n.value % sk.n.value ^ 2
  hs_pos : 0 < pk.hs
  hs_lt : pk.hs < sk.n.value ^ 2
  hs_coprime : Nat.Coprime pk.hs sk.n.value

variable {test : ℕ → Bool} {keySize : ℕ} {sk : SecretKey} {pk : PublicKey} {e e' : Entropy}

theorem cast_neg_square (m : Modulus) (x : ℕ) :
    ((m.neg (m.mul x x) : ℕ) : ℤ) = -(x : ℤ) ^ 2 % m.value := by
  have hlt : m.neg (m.mul x x) < m.value := Nat.mod_lt _ m.value_pos
  have hcongr : ((m.neg (m.mul x x) : ℕ) : ℤ) ≡ -(x : ℤ) ^ 2 [ZMOD m.value] := by
    rw [← ZMod.intCast_eq_intCast_iff, Int.cast_natCast, Modulus.cast_neg (ZMod.natCast_self _),
      Modulus.cast_mul (ZMod.natCast_self _)]
    push_cast
    ring
  rw [← hcongr.eq, Int.emod_eq_of_lt (by omega) (by omega)]

theorem SecretKey.lambda_of_gcd (h : sk.Sound)
    (hgcd : Nat.gcd (sk.p.value - 1) (sk.q.value - 1) = 2) :
    sk.lambda = (sk.p.value - 1) * (sk.q.value - 1) / 2 := by
  rw [h.lambda_eq, Nat.lcm, hgcd]

theorem generatedKeys_of_kept (hkept : Kept keySize sk.p.value sk.q.value) (hsound : sk.Sound) {x : ℕ}
    (hx : 0 < x ∧ x < sk.n.value ∧ Nat.Coprime x sk.n.value)
    (hpk : PublicKey.ofParts sk.n.value (sk.powSquare (sk.n.neg (sk.n.mul x x)) sk.n.value) =
      .ok pk) : GeneratedKeys keySize sk pk := by
  obtain ⟨hvalue, hhs⟩ := PublicKey.ofParts_eq_ok hpk
  obtain ⟨hcontains, hcoprime⟩ := pk.unit
  obtain ⟨hpos, hlt⟩ := (Modulus.contains_iff _ _).mp hcontains
  obtain ⟨hfirst, hsecond⟩ := minPrimeBits_le hkept.size
  rw [Modulus.square_value, ← sq, hvalue] at hlt
  rw [hvalue] at hcoprime
  exact {
    bits := by rw [hvalue, SecretKey.n_value, hkept.bitLength_mul]
    n_value := SecretKey.n_value sk
    n_eq := Modulus.ext hvalue
    prime_p := hsound.prime_p
    prime_q := hsound.prime_q
    ne := hsound.ne
    bits_p := hkept.top_p.bitLength_eq (lt_of_lt_of_le (by decide) hfirst)
    bits_q := hkept.top_q.bitLength_eq (lt_of_lt_of_le (by decide) hsecond)
    gcd := hkept.gcd
    lambda_eq := SecretKey.lambda_of_gcd hsound hkept.gcd
    inverse := hsound.lambda_mul_mu_modEq
    blinding := ⟨x, _, hx.1, hx.2.1, hx.2.2, cast_neg_square sk.n x,
      hhs.trans (SecretKey.powSquare_neg_square hsound hx.2.2)⟩
    hs_pos := hpos
    hs_lt := hlt
    hs_coprime := hcoprime }

theorem generatedKeys_of_keyCandidate (exact : ExactTest test) (hsize : Limits.minKeySize ≤ keySize)
    (h : (keyCandidate test keySize).outcome e = (.ok (some (sk, pk)), e')) :
    GeneratedKeys keySize sk pk := by
  rw [keyCandidate] at h
  obtain ⟨p, e₁, hp, h⟩ := outcome_bind_eq_ok.mp h
  obtain ⟨q, e₂, hq, h⟩ := outcome_bind_eq_ok.mp h
  by_cases hdiscarded : p = q ∨ Nat.gcd (p - 1) (q - 1) ≠ 2
  · rw [if_pos hdiscarded] at h
    cases h
  rw [if_neg hdiscarded] at h
  rw [not_or, not_not] at hdiscarded
  obtain ⟨sk', hsk, h⟩ := outcome_lift_bind_eq_ok.mp h
  obtain ⟨x, e₃, hx, h⟩ := outcome_bind_eq_ok.mp h
  obtain ⟨pk', hpk, h⟩ := outcome_lift_bind_eq_ok.mp h
  cases h
  obtain ⟨mu, -, -, hparts⟩ := SecretKey.exists_ofParts_of_ofPrimes hsk
  obtain ⟨rfl, rfl, -, -, hsound, -⟩ := SecretKey.ofParts_eq_ok exact hparts
  obtain ⟨hfirst, hsecond⟩ := minPrimeBits_le hsize
  have hkept : Kept keySize sk.p.value sk.q.value :=
    ⟨hsize, topPrime_of_outcome exact hfirst hp, topPrime_of_outcome exact hsecond hq, hdiscarded.1,
      hdiscarded.2⟩
  exact generatedKeys_of_kept hkept hsound (unit_of_outcome sk.n.value_pos hx) hpk

theorem generatedKeys_of_generate (exact : ExactTest test)
    (h : (generate test keySize).outcome e = (.ok (sk, pk), e')) : GeneratedKeys keySize sk pk := by
  rw [generate] at h
  by_cases hsize : keySize < Limits.minKeySize
  · rw [if_pos hsize] at h
    cases h
  rw [if_neg hsize] at h
  obtain ⟨e₁, hattempt⟩ := exists_of_outcome_retry h
  exact generatedKeys_of_keyCandidate exact (Nat.le_of_not_lt hsize) hattempt

theorem outcome_generate_of_first (hsize : Limits.minKeySize ≤ keySize)
    (h : (keyCandidate test keySize).outcome e = (.ok (some (sk, pk)), e')) :
    (generate test keySize).outcome e = (.ok (sk, pk), e') := by
  rw [generate, if_neg (Nat.not_lt.mpr hsize)]
  exact outcome_retry_of_some (by decide) (.none e) h

def partnerPrime : ℕ := 2 * 7 ^ 18 * 11 ^ 59 + 1

theorem prime_partnerPrime : partnerPrime.Prime :=
  prime_of_factors 7 [2, 7, 11] (by decide +kernel) (by decide +kernel) (by decide +kernel)
    ⟨59, by decide +kernel⟩

def partnerStream : Entropy :=
  .ofBytes (Bytes.ofNat 32 germainPrime ++ Bytes.ofNat 32 partnerPrime ++ Bytes.ofNat 64 2)

theorem generate_partnerStream : ∃ sk pk e',
    (generate (fun n => decide n.Prime) 512).outcome partnerStream = (.ok (sk, pk), e') ∧
      sk.p.value = germainPrime ∧ sk.q.value = partnerPrime ∧ GeneratedKeys 512 sk pk := by
  have hdraws : Draws (fun n => decide n.Prime) 512 partnerStream germainPrime partnerPrime
      { partnerStream with used := 64 } :=
    ⟨_, outcome_prime_of_first exactTest_decide (by decide) prime_germainPrime (by decide +kernel),
      outcome_prime_of_first exactTest_decide (by decide) prime_partnerPrime (by decide +kernel)⟩
  have hkept : Kept 512 germainPrime partnerPrime :=
    { size := by decide
      top_p := ⟨prime_germainPrime, by decide +kernel, by decide +kernel⟩
      top_q := ⟨prime_partnerPrime, by decide +kernel, by decide +kernel⟩
      ne := by decide +kernel
      gcd := by decide +kernel }
  obtain ⟨e₃, hx⟩ : ∃ e₃, (unit (germainPrime * partnerPrime)).outcome
      { partnerStream with used := 64 } = (.ok 2, e₃) :=
    ⟨_, outcome_unit_of_first two_pos (by decide +kernel) (by decide +kernel) (by decide +kernel)⟩
  obtain ⟨sk, pk, hpair, hkeys⟩ := outcome_keyCandidate_of_unit exactTest_decide hdraws hkept
    (by decide +kernel) hx
  have hgenerate := outcome_generate_of_first (by decide) hpair
  exact ⟨sk, pk, _, hgenerate, hkeys.p_eq, hkeys.q_eq,
    generatedKeys_of_generate exactTest_decide hgenerate⟩

end Homomorphic.Paillier
