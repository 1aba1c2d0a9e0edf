import Homomorphic.ElGamal.Key
import Homomorphic.Proofs.Curve.PointGroup

namespace Homomorphic.ElGamal

open PointGroup

theorem checkMaxPlaintext_eq_ok {bound : UInt64} :
    checkMaxPlaintext bound = .ok () ↔
      0 < bound.toNat ∧ bound.toNat ≤ Limits.maxMaxPlaintext := by
  rw [checkMaxPlaintext]
  split
  · exact iff_of_false (by simp) (by omega)
  · exact iff_of_true rfl (by omega)

theorem checkTable_eq {bound : UInt64} {tableBits : UInt32} :
    checkTable bound tableBits =
      if bound.toNat = 0 ∨ Limits.maxMaxPlaintext < bound.toNat then
        .error (.invalidParameters (.maxPlaintext bound.toNat))
      else if tableBits.toNat = 0 ∨ Limits.maxTableBits < tableBits.toNat then
        .error (.invalidParameters (.tableBits tableBits.toNat))
      else if Limits.maxGiantSteps < bound.toNat >>> tableBits.toNat then
        .error (.invalidParameters (.giantSteps bound.toNat tableBits.toNat))
      else .ok () := by
  rw [checkTable, checkMaxPlaintext]
  by_cases hmax : bound.toNat = 0 ∨ Limits.maxMaxPlaintext < bound.toNat
  · rw [if_pos hmax, if_pos hmax]
    rfl
  rw [if_neg hmax, if_neg hmax]
  change (if _ then _ else _) = _
  by_cases hbits : tableBits.toNat = 0 ∨ Limits.maxTableBits < tableBits.toNat
  · rw [if_pos hbits, if_pos hbits]
    rfl
  · rw [if_neg hbits, if_neg hbits]
    rfl

theorem checkTable_eq_ok {bound : UInt64} {tableBits : UInt32} :
    checkTable bound tableBits = .ok () ↔
      checkMaxPlaintext bound = .ok () ∧ 0 < tableBits.toNat ∧
        tableBits.toNat ≤ Limits.maxTableBits ∧
        bound.toNat >>> tableBits.toNat ≤ Limits.maxGiantSteps := by
  rw [checkTable_eq, checkMaxPlaintext_eq_ok]
  split_ifs
  · exact iff_of_false (by simp) (by omega)
  · exact iff_of_false (by simp) (by omega)
  · exact iff_of_false (by simp) (by omega)
  · exact iff_of_true rfl (by omega)

theorem checkTable_eq_giantSteps {bound : UInt64} {tableBits : UInt32} :
    checkTable bound tableBits =
        .error (.invalidParameters (.giantSteps bound.toNat tableBits.toNat)) ↔
      checkMaxPlaintext bound = .ok () ∧ 0 < tableBits.toNat ∧
        tableBits.toNat ≤ Limits.maxTableBits ∧
        Limits.maxGiantSteps < bound.toNat >>> tableBits.toNat := by
  rw [checkTable_eq, checkMaxPlaintext_eq_ok]
  split_ifs
  · exact iff_of_false (by simp) (by omega)
  · exact iff_of_false (by simp) (by omega)
  · exact iff_of_true rfl (by omega)
  · exact iff_of_false (by simp) (by omega)

variable {E : PointGroup} {curve : NamedCurve} {bound : UInt64} {tableBits : UInt32}

theorem PublicKey.exists_ofParts {y : E.Point} (hne : E.same y E.zero = false)
    (hvalid : checkMaxPlaintext bound = .ok ()) :
    ∃ pk : PublicKey E, ofParts curve y bound = .ok pk ∧ pk.curve = curve ∧ pk.y = y ∧
      pk.maxPlaintext = bound := by
  rw [ofParts, dif_pos hne]
  split
  · exact ⟨_, rfl, rfl, rfl, rfl⟩
  · next herror => rw [hvalid] at herror; cases herror

theorem PublicKey.ofParts_eq_ok {y : E.Point} {pk : PublicKey E} (h : ofParts curve y bound = .ok pk) :
    pk.curve = curve ∧ pk.y = y ∧ pk.maxPlaintext = bound := by
  rw [ofParts] at h
  split at h
  · split at h
    · cases h
      exact ⟨rfl, rfl, rfl⟩
    · cases h
  · cases h

namespace SecretKey

theorem exists_ofParts {x : ℕ} (hx : 0 < x % E.order) (hvalid : checkTable bound tableBits = .ok ()) :
    ∃ sk : SecretKey E, ofParts curve x bound tableBits = .ok sk := by
  rw [ofParts, dif_pos hx]
  split
  · exact ⟨_, rfl⟩
  · next herror => rw [hvalid] at herror; cases herror

theorem ofParts_eq_ok {x : ℕ} {sk : SecretKey E} (h : ofParts curve x bound tableBits = .ok sk) :
    sk.curve = curve ∧ sk.x = x % E.order ∧ sk.maxPlaintext = bound ∧ sk.tableBits = tableBits := by
  by_cases hx : 0 < x % E.order
  · rw [ofParts, dif_pos hx] at h
    split at h
    · cases h
      exact ⟨rfl, rfl, rfl, rfl⟩
    · cases h
  · rw [ofParts, dif_neg hx] at h
    cases h

variable {G : Type} [AddCommGroup G] {element : E.Point → G}

theorem exists_publicKey (laws : E.Represents element) (sk : SecretKey E) :
    ∃ pk, sk.publicKey = .ok pk ∧ pk.curve = sk.curve ∧ pk.y = E.mulBase sk.x ∧
      pk.maxPlaintext = sk.maxPlaintext := by
  -- The base point has the order of the group, which the scalar is below.
  have hne : E.same (E.mulBase sk.x) E.zero = false := by
    rw [Bool.eq_false_iff, ne_eq, laws.same (.mulBase _) .zero, laws.mulBase, laws.zero,
      ← zero_nsmul (element E.base), laws.nsmul_base_inj sk.x_lt order_pos]
    exact sk.x_pos.ne'
  exact PublicKey.exists_ofParts hne (checkTable_eq_ok.mp sk.valid).1

theorem exists_keyPair (laws : E.Represents element) (curve : NamedCurve) {x : ℕ}
    (hx : 0 < x % E.order) (hvalid : checkTable bound tableBits = .ok ()) :
    ∃ (sk : SecretKey E) (pk : PublicKey E), ofParts curve x bound tableBits = .ok sk ∧
      sk.publicKey = .ok pk ∧ sk.curve = curve ∧ pk.curve = curve ∧ pk.y = E.mulBase sk.x ∧
      sk.maxPlaintext = bound ∧ pk.maxPlaintext = bound := by
  obtain ⟨sk, hsk⟩ : ∃ sk : SecretKey E, ofParts curve x bound tableBits = .ok sk :=
    exists_ofParts hx hvalid
  obtain ⟨hcurve, -, hbound, -⟩ := ofParts_eq_ok hsk
  obtain ⟨pk, hpk, hcurve', hy, hbound'⟩ := sk.exists_publicKey laws
  exact ⟨sk, pk, hsk, hpk, hcurve, hcurve'.trans hcurve, hy, hbound, hbound'.trans hbound⟩

end SecretKey

end Homomorphic.ElGamal
