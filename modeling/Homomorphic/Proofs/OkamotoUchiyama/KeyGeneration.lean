import Homomorphic.OkamotoUchiyama.KeyGeneration
import Homomorphic.Proofs.OkamotoUchiyama.Encoding
import Homomorphic.Proofs.Sampling

namespace Homomorphic.OkamotoUchiyama

open Draw Entropy

variable {test : ℕ → Bool} {keySize : ℕ} {sk : SecretKey} {pk : PublicKey} {e e' : Entropy}

structure KeyPair (test : ℕ → Bool) (keySize : ℕ) (sk : SecretKey) (pk : PublicKey) : Prop where
  parts : SecretKey.ofParts test sk.p.value sk.q.value sk.gpInv = .ok sk
  size : Limits.minKeySize ≤ keySize
  topP : TopPrime (ceilDiv keySize 3) sk.p.value
  topQ : TopPrime (keySize - 2 * ceilDiv keySize 3) sk.q.value
  n_eq : pk.n = sk.n
  bits : bitLength pk.n.value = keySize
  h_eq : pk.h = pk.g ^ sk.n.value % sk.n.value
  order : pk.g ^ (sk.p.value - 1) % (sk.p.value * sk.p.value) ≠ 1
  inverse : sk.gpInv * logarithm sk.p pk.g ≡ 1 [MOD sk.p.value]

namespace KeyPair

theorem not_prime (h : KeyPair test keySize sk pk) : ¬ pk.n.value.Prime := by
  rw [h.n_eq, SecretKey.n_value, Nat.mul_assoc]
  apply Nat.not_prime_mul h.topP.prime.ne_one
  intro hone
  exact h.topP.prime.ne_one (Nat.eq_one_of_mul_eq_one_right hone)

theorem q_lt_p (h : KeyPair test keySize sk pk) (hthree : ¬ 3 ∣ keySize) : sk.q.value < sk.p.value := by
  have hsize := h.size
  have hfewer : keySize - 2 * ceilDiv keySize 3 < ceilDiv keySize 3 := by
    rw [Limits.minKeySize] at hsize
    rw [ceilDiv]
    omega
  exact h.topQ.lt.trans_le (h.topP.two_pow_le hfewer)

theorem minKeySize_le_bitLength_p (h : KeyPair test keySize sk pk) (hlarge : 1534 ≤ keySize) :
    Limits.minKeySize ≤ bitLength sk.p.value := by
  have hwidth : 511 < ceilDiv keySize 3 := by
    rw [ceilDiv]
    omega
  exact lt_bitLength.mpr (h.topP.two_pow_le hwidth)

end KeyPair

theorem minPrimeBits_le (hsize : Limits.minKeySize ≤ keySize) :
    Limits.minPrimeBits ≤ ceilDiv keySize 3 ∧
      Limits.minPrimeBits ≤ keySize - 2 * ceilDiv keySize 3 := by
  rw [Limits.minKeySize] at hsize
  rw [Limits.minPrimeBits, ceilDiv]
  omega

theorem one_lt_mul_mul {p q : ℕ} (hp : p.Prime) (hq : q.Prime) : 1 < p * p * q :=
  Nat.one_lt_mul_iff.mpr ⟨Nat.mul_pos hp.pos hp.pos, hq.pos, .inr hq.one_lt⟩

theorem exists_keyPair (exact : ExactTest test) (hsize : Limits.minKeySize ≤ keySize) {p n : Modulus}
    {q g : ℕ} (hp : TopPrime (ceilDiv keySize 3) p.value)
    (hq : TopPrime (keySize - 2 * ceilDiv keySize 3) q) (hne : p.value ≠ q)
    (hn : n.value = p.value * p.value * q) (hbits : bitLength n.value = keySize)
    (hlt : g < n.value) (hg : Nat.Coprime g n.value)
    (horder : p.square.natPow g (p.value - 1) ≠ 1) :
    ∃ gpInv sk pk, p.inv (logarithm p g) = .ok gpInv ∧
      SecretKey.ofParts test p.value q gpInv = .ok sk ∧
      PublicKey.ofParts n.value g (n.natPow g n.value) = .ok pk ∧ KeyPair test keySize sk pk := by
  have hgp : Nat.Coprime g p.value := hg.coprime_dvd_right ⟨p.value * q, by rw [hn, mul_assoc]⟩
  obtain ⟨gpInv, hinv, hinvlt, hmul⟩ := p.inv_of_coprime (coprime_logarithm hp.prime hgp horder)
  have hinvpos : 0 < gpInv := by
    apply Nat.pos_of_ne_zero
    rintro rfl
    rw [zero_mul, Nat.zero_mod] at hmul
    exact zero_ne_one hmul
  have hn' : bitLength (p.value * p.value * q) = keySize := by rw [← hn, hbits]
  have hparts := SecretKey.ofParts_of_prime exact hp.prime hq.prime hne (hn' ▸ hsize) hinvpos hinvlt
  have hodd : n.value % 2 = 1 := by
    rw [hn, Nat.mul_mod, Nat.mul_mod p.value, hp.odd, hq.odd]
  have hpow : n.natPow g n.value = g ^ n.value % n.value := powMod_eq _ _ _
  obtain ⟨pk, hpk⟩ := PublicKey.exists_ofParts hodd (hbits.symm ▸ hsize) hlt hg
    (n.natPow_lt g n.value) (hpow ▸ (ZMod.coprime_mod_iff_coprime _ _).mpr (hg.pow_left _))
  obtain ⟨hpkn, hpkg, hpkh⟩ := PublicKey.ofParts_eq_ok hpk
  refine ⟨gpInv, _, pk, hinv, hparts, hpk, hparts, hsize, hp, hq, Modulus.ext (hpkn.trans hn),
    hpkn ▸ hbits, ?_, ?_, ?_⟩
  · rw [hpkh, hpkg, hpow, SecretKey.n_value, hn]
  · rw [hpkg, ← powMod_eq]
    exact horder
  · rw [hpkg, Nat.ModEq, hmul, Nat.mod_eq_of_lt p.one_lt]

theorem ensures_keyCandidate (exact : ExactTest test) (hsize : Limits.minKeySize ≤ keySize) :
    Ensures (keyCandidate test keySize) (fun x => ∀ keys ∈ x, KeyPair test keySize keys.1 keys.2)
      DrawError := by
  obtain ⟨hfirst, hsecond⟩ := minPrimeBits_le hsize
  refine (ensures_prime exact hfirst).bind fun p hp => (ensures_prime exact hsecond).bind fun q hq => ?_
  by_cases hne : p = q
  · rw [if_pos hne]
    exact ensures_pure nofun
  rw [if_neg hne]
  have hone : 1 < p * p * q := one_lt_mul_mul hp.prime hq.prime
  refine ensures_lift_bind (Modulus.of_eq_ok hp.prime.one_lt) ?_
  refine ensures_lift_bind (Modulus.of_eq_ok hone) ?_
  by_cases hbits : bitLength (p * p * q) ≠ keySize
  · rw [if_pos hbits]
    exact ensures_pure nofun
  rw [if_neg hbits]
  refine (ensures_unit (zero_lt_one.trans hone)).bind fun g ⟨_, hlt, hg⟩ => ?_
  split
  · exact ensures_pure nofun
  · next horder =>
    obtain ⟨gpInv, sk, pk, hinv, hsk, hpk, hpair⟩ := exists_keyPair exact hsize
      (p := ⟨p, hp.prime.one_lt⟩) (n := ⟨p * p * q, hone⟩) hp hq hne rfl (not_not.mp hbits) hlt hg
      horder
    refine ensures_lift_bind hinv (ensures_lift_bind hsk (ensures_lift_bind hpk ?_))
    apply ensures_pure
    rintro keys ⟨⟩
    exact hpair

theorem ensures_generate (exact : ExactTest test) (hsize : Limits.minKeySize ≤ keySize) :
    Ensures (generate test keySize) (fun keys => KeyPair test keySize keys.1 keys.2) DrawError := by
  rw [generate, if_neg (Nat.not_lt.mpr hsize)]
  exact (ensures_keyCandidate exact hsize).retry (.keyGeneration _) _

theorem outcome_generate_of_undersized (hsize : keySize < Limits.minKeySize) (e : Entropy) :
    (generate test keySize).outcome e = (.error (.invalidParameters (.keySize keySize)), e) := by
  rw [generate, if_pos hsize]
  rfl

theorem keyPair_of_outcome_generate (exact : ExactTest test)
    (h : (generate test keySize).outcome e = (.ok (sk, pk), e')) : KeyPair test keySize sk pk := by
  rcases lt_or_ge keySize Limits.minKeySize with hsize | hsize
  · rw [outcome_generate_of_undersized hsize] at h
    cases h
  · exact (ensures_generate exact hsize).of_ok h

end Homomorphic.OkamotoUchiyama
