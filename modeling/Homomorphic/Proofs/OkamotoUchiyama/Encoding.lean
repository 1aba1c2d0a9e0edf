import Homomorphic.OkamotoUchiyama.Cipher
import Homomorphic.Proofs.Loading
import Homomorphic.Proofs.OkamotoUchiyama.Key
import Homomorphic.Proofs.Wire

namespace Homomorphic.OkamotoUchiyama

open Wire

variable {bytes : Bytes}

namespace Ciphertext

theorem ofBytes_of_toBytes {c : Ciphertext} (h : c.toBytes = .ok bytes) : ofBytes bytes = .ok c := by
  obtain ⟨hlength, rfl⟩ := encode_eq_ok.mp h
  rw [ofBytes, (reads_natural hlength).decode]
  rfl

end Ciphertext

namespace SecretKey

variable {test : ℕ → Bool} {p q gpInv : ℕ} {sk : SecretKey}

theorem parts_of_ofParts (h : ofParts test p q gpInv = .ok sk) :
    sk.p.value = p ∧ sk.q.value = q ∧ sk.gpInv = gpInv ∧ 0 < gpInv ∧ gpInv < p := by
  rw [ofParts] at h
  split at h
  · cases h
  split at h
  · cases h
  split at h
  · next hp hq =>
    split at h
    · cases h
    split at h
    · next hrange =>
      cases h
      exact ⟨value_of_ofPrime? hp, value_of_ofPrime? hq, rfl, hrange⟩
    · cases h
  · cases h

theorem reads {a b c : ℕ} (h : (putNaturals [a, b, c]).length ≤ Limits.maxWireBytes) :
    Reads reader (putNaturals [a, b, c]) (a, b, c) := by
  have hnatural {n : ℕ} (hn : n ∈ [a, b, c]) : Reads natural (putNatural n) n :=
    reads_natural_of_mem hn h
  exact (hnatural (by simp)).bind <| (hnatural (by simp)).bind <| (hnatural (by simp)).bind (.pure _)

theorem ofBytes_of_toBytes (hsk : ofParts test p q gpInv = .ok sk) (h : sk.toBytes = .ok bytes) :
    ofBytes test bytes = .ok sk := by
  obtain ⟨hlength, rfl⟩ := encode_eq_ok.mp h
  obtain ⟨rfl, rfl, rfl, -⟩ := parts_of_ofParts hsk
  rw [ofBytes, (reads hlength).decode]
  exact hsk

end SecretKey

namespace PublicKey

variable {pk pk' : PublicKey}

theorem ofParts_self (pk : PublicKey) : ofParts pk.n.value pk.g pk.h = .ok pk := by
  obtain ⟨n, g, h, gPowers, hPowers, odd, size, unitG, unitH, gPowers_eq, hPowers_eq⟩ := pk
  have hmodulus : Modulus.ofSize n.value size = n := rfl
  subst gPowers_eq hPowers_eq
  simp only [ofParts, dif_pos odd, dif_pos size, hmodulus, dif_pos unitG, dif_pos unitH]

theorem ofBytes_of_toBytes (h : pk.toBytes = .ok bytes) : ofBytes bytes = .ok pk := by
  obtain ⟨hlength, rfl⟩ := encode_eq_ok.mp h
  rw [ofBytes, (SecretKey.reads hlength).decode]
  exact pk.ofParts_self

theorem beq_iff : (pk == pk') = true ↔ pk = pk' := by
  change (decide (pk.n = pk'.n) && pk.g == pk'.g && pk.h == pk'.h) = true ↔ _
  rw [Bool.and_eq_true, Bool.and_eq_true, decide_eq_true_iff, beq_iff_eq, beq_iff_eq]
  constructor
  · rintro ⟨⟨hn, hg⟩, hh⟩
    have hparts := pk.ofParts_self
    rw [hn, hg, hh, ofParts_self] at hparts
    exact (Except.ok.inj hparts).symm
  · rintro rfl
    exact ⟨⟨rfl, rfl⟩, rfl⟩

theorem exists_ofParts_secretKey_iff {test : ℕ → Bool} (exact : ExactTest test) {p q gpInv : ℕ}
    {sk : SecretKey} (hsk : SecretKey.ofParts test p q gpInv = .ok sk) :
    (∃ pk, ofParts p q gpInv = .ok pk) ↔ Limits.minKeySize ≤ bitLength p ∧ q < p := by
  obtain ⟨-, -, -, hp, hq, hne⟩ := SecretKey.ofParts_eq_ok exact hsk
  obtain ⟨-, -, -, hpos, hlt⟩ := SecretKey.parts_of_ofParts hsk
  constructor
  · rintro ⟨pk, hpk⟩
    obtain ⟨rfl, rfl, -⟩ := ofParts_eq_ok hpk
    exact ⟨pk.size, ((pk.n.contains_iff _).mp pk.unitG.1).2⟩
  · rintro ⟨hsize, hqp⟩
    have hlarge : 2 ^ 511 ≤ p := lt_bitLength.mp hsize
    have hodd : p % 2 = 1 := hp.eq_two_or_odd.resolve_left (by omega)
    have hcoprime : Nat.Coprime gpInv p :=
      (Nat.coprime_of_lt_prime hpos.ne' hlt hp).symm
    exact exists_ofParts hodd hsize hqp ((Nat.coprime_primes hq hp).mpr hne.symm) hlt hcoprime

theorem ofBytes_secretKey {test : ℕ → Bool} {p q gpInv : ℕ} {sk : SecretKey}
    (hsk : SecretKey.ofParts test p q gpInv = .ok sk) (h : sk.toBytes = .ok bytes) :
    ofBytes bytes = ofParts p q gpInv := by
  obtain ⟨hlength, rfl⟩ := encode_eq_ok.mp h
  obtain ⟨rfl, rfl, rfl, -⟩ := SecretKey.parts_of_ofParts hsk
  rw [ofBytes, (SecretKey.reads hlength).decode]
  rfl

end PublicKey

theorem SecretKey.ofBytes_publicKey {test : ℕ → Bool} (exact : ExactTest test) {pk : PublicKey}
    (hn : ¬ pk.n.value.Prime) (h : pk.toBytes = .ok bytes) :
    ofBytes test bytes = .error (.keyState .compositePrime) := by
  obtain ⟨hlength, rfl⟩ := encode_eq_ok.mp h
  obtain ⟨hpos, hlt⟩ := (pk.n.contains_iff _).mp pk.unitG.1
  have hzero : ¬ (pk.n.value = 0 ∨ pk.g = 0) := by omega
  rw [ofBytes, (reads hlength).decode]
  change ofParts test pk.n.value pk.g pk.h = _
  rw [ofParts, if_neg hzero, if_neg hlt.ne', ofPrime?_eq_none exact hn]

end Homomorphic.OkamotoUchiyama
