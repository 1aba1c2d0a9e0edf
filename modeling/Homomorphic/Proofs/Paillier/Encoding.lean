import Homomorphic.Paillier.Cipher
import Homomorphic.Proofs.Loading
import Homomorphic.Proofs.Primality
import Homomorphic.Proofs.Residue
import Homomorphic.Proofs.Wire

namespace Homomorphic.Paillier

open Wire

variable {bytes : Bytes}

namespace Ciphertext

theorem ofBytes_of_toBytes {c : Ciphertext} (h : c.toBytes = .ok bytes) : ofBytes bytes = .ok c := by
  obtain ⟨hlength, rfl⟩ := encode_eq_ok.mp h
  rw [ofBytes, (reads_natural hlength).decode]
  rfl

end Ciphertext

namespace SecretKey

variable {test : ℕ → Bool} {p q lambda mu : ℕ} {sk : SecretKey}

theorem parts_of_ofParts (h : ofParts test p q lambda mu = .ok sk) :
    sk.p.value = p ∧ sk.q.value = q ∧ sk.lambda = lambda ∧ sk.mu = mu := by
  rw [ofParts] at h
  split at h
  · cases h
  split at h
  · cases h
  split at h
  · next hp hq =>
    split at h
    · cases h
    split at h
    · cases h
    split at h
    · cases h
    split at h
    · cases h
    · cases h
      exact ⟨value_of_ofPrime? hp, value_of_ofPrime? hq, rfl, rfl⟩
  · cases h

theorem reads (h : (putNaturals [p, q, lambda, mu]).length ≤ Limits.maxWireBytes) :
    Reads reader (putNaturals [p, q, lambda, mu]) (p, q, lambda, mu) := by
  have hnatural {n : ℕ} (hn : n ∈ [p, q, lambda, mu]) : Reads natural (putNatural n) n :=
    reads_natural_of_mem hn h
  exact (hnatural (by simp)).bind <| (hnatural (by simp)).bind <| (hnatural (by simp)).bind <|
    (hnatural (by simp)).bind (.pure _)

theorem ofBytes_of_toBytes (hsk : ofParts test p q lambda mu = .ok sk) (h : sk.toBytes = .ok bytes) :
    ofBytes test bytes = .ok sk := by
  obtain ⟨hlength, rfl⟩ := encode_eq_ok.mp h
  obtain ⟨rfl, rfl, rfl, rfl⟩ := parts_of_ofParts hsk
  rw [ofBytes, (reads hlength).decode]
  exact hsk

end SecretKey

namespace PublicKey

variable {pk pk' : PublicKey}

theorem ofParts_self (pk : PublicKey) : ofParts pk.n.value pk.hs = .ok pk := by
  obtain ⟨n, hs, powers, odd, size, unit, powers_eq⟩ := pk
  have hzero : n.value ≠ 0 := n.value_pos.ne'
  have hmodulus : Modulus.ofSize n.value size = n := rfl
  subst powers_eq
  simp only [ofParts, if_neg hzero, dif_pos odd, dif_pos size, hmodulus, dif_pos unit]

theorem reads {n hs : ℕ} (h : (putNaturals [n, hs]).length ≤ Limits.maxWireBytes) :
    Reads reader (putNaturals [n, hs]) (n, hs) := by
  have hnatural {m : ℕ} (hm : m ∈ [n, hs]) : Reads natural (putNatural m) m :=
    reads_natural_of_mem hm h
  exact (hnatural (by simp)).bind <| (hnatural (by simp)).bind (.pure _)

theorem ofBytes_of_toBytes (h : pk.toBytes = .ok bytes) : ofBytes bytes = .ok pk := by
  obtain ⟨hlength, rfl⟩ := encode_eq_ok.mp h
  rw [ofBytes, (reads hlength).decode]
  exact pk.ofParts_self

theorem beq_iff : (pk == pk') = true ↔ pk = pk' := by
  change (decide (pk.n = pk'.n) && pk.hs == pk'.hs) = true ↔ _
  rw [Bool.and_eq_true, decide_eq_true_iff, beq_iff_eq]
  constructor
  · rintro ⟨hn, hhs⟩
    have hparts := pk.ofParts_self
    rw [hn, hhs, ofParts_self] at hparts
    exact (Except.ok.inj hparts).symm
  · rintro rfl
    exact ⟨rfl, rfl⟩

end PublicKey

theorem PublicKey.ofBytes_secretKey {sk : SecretKey} (h : sk.toBytes = .ok bytes) :
    ofBytes bytes = .error (.wire .trailingBytes) := by
  obtain ⟨hlength, rfl⟩ := encode_eq_ok.mp h
  have hsplit := putNaturals_append [sk.p.value, sk.q.value] [sk.lambda, sk.mu]
  rw [List.cons_append, List.cons_append, List.nil_append] at hsplit
  rw [hsplit, List.length_append] at hlength
  have hreads := reads (Nat.le_of_add_right_le hlength)
  rw [ofBytes, hsplit, hreads.decode_append (putNaturals_cons_ne_nil _ _)]
  rfl

theorem SecretKey.ofBytes_publicKey (test : ℕ → Bool) {pk : PublicKey} (h : pk.toBytes = .ok bytes) :
    ofBytes test bytes = .error (.wire .endOfBytes) := by
  obtain ⟨hlength, rfl⟩ := encode_eq_ok.mp h
  have hnatural {m : ℕ} (hm : m ∈ [pk.n.value, pk.hs]) : Reads natural (putNatural m) m :=
    reads_natural_of_mem hm hlength
  have hend : reader (putNaturals [pk.n.value, pk.hs]) = .error .endOfBytes := by
    rw [putNaturals_cons, putNaturals_cons, putNaturals_nil, reader,
      bind_of_ok (hnatural (by simp) _), bind_of_ok (hnatural (by simp) _)]
    exact bind_of_error natural_nil
  rw [ofBytes, decode_of_error hend]
  rfl

end Homomorphic.Paillier
