import Homomorphic.Paillier.Cipher
import Homomorphic.Proofs.Paillier.Key
import Homomorphic.Proofs.PrincipalUnit
import Homomorphic.Proofs.Realization
import Homomorphic.Proofs.ResidueUnits
import Homomorphic.Proofs.Sampling

namespace Homomorphic.Paillier

theorem Ciphertext.ext {a b : Ciphertext} (h : a.value = b.value) : a = b := by
  cases a
  cases b
  exact congrArg mk h

namespace PublicKey

open Modulus

variable (pk : PublicKey)

theorem powers_pow (r : ℕ) : pk.powers.pow r = pk.hs ^ r % pk.n.square.value := by
  rw [pk.powers_eq, FixedBase.build_pow]

theorem isUnit_hs : IsUnit (pk.hs : ZMod pk.n.square.value) :=
  SecretKey.isUnit_cast_square pk.unit.2

theorem cast_encode (m : ℤ) :
    (pk.encode m : ZMod (pk.n.value * pk.n.value)) = principalUnit pk.n.value m := by
  have hcongr : ((pk.n.normalize m : ℕ) : ℤ) ≡ m [ZMOD pk.n.value] := by
    rw [← ZMod.intCast_eq_intCast_iff, Int.cast_natCast,
      Modulus.cast_normalize (ZMod.natCast_self _)]
  rw [← principalUnit_congr hcongr, encode, principalUnit]
  push_cast
  ring

def plain : UnitGroup pk.n.square.value := principal pk.n.value 1

theorem standsFor_encode (m : ℤ) : pk.n.square.StandsFor (pk.encode m) (m • pk.plain) where
  lt := by
    have hlt := pk.n.normalize_lt m
    have hone := pk.n.one_lt
    rw [Modulus.square_value, encode]
    nlinarith
  cast := by
    have hplain : m • pk.plain = principal pk.n.value m := zsmul_principal_one m
    rw [hplain]
    exact pk.cast_encode m

theorem standsFor_plain : pk.n.square.StandsFor (pk.encode 1) pk.plain := by
  have hone := pk.standsFor_encode 1
  rwa [one_zsmul] at hone

noncomputable def blinding : UnitGroup pk.n.square.value := .ofMul pk.isUnit_hs.unit

theorem standsFor_powers (r : ℕ) : pk.n.square.StandsFor (pk.powers.pow r) (r • pk.blinding) := by
  rw [powers_pow]
  exact .of_pow rfl r

theorem encryptWith_of_lt {m : ℤ} (hm : pk.bound < m.natAbs) (r : ℕ) :
    pk.encryptWith m r = .error (.domain (.beyondHalfModulus pk.keySize)) := by
  rw [PublicKey.encryptWith, checkPlaintext, if_neg (Nat.not_le_of_lt hm)]
  rfl

theorem addPlain_of_lt {a : Ciphertext} (ha : pk.n.square.contains a.value = true) {m : ℤ}
    (hm : pk.bound < m.natAbs) :
    pk.addPlain a m = .error (.domain (.beyondHalfModulus pk.keySize)) := by
  rw [PublicKey.addPlain, check, checkPlaintext, if_pos ha, if_neg (Nat.not_le_of_lt hm)]
  rfl

theorem mul_of_lt {a : Ciphertext} (ha : pk.n.square.contains a.value = true) {k : ℤ}
    (hk : pk.bound < k.natAbs) :
    pk.mul a k = .error (.domain (.beyondHalfModulus pk.keySize)) := by
  rw [PublicKey.mul, check, checkPlaintext, if_pos ha, if_neg (Nat.not_le_of_lt hk)]
  rfl

theorem realizes :
    pk.operations.Realizes pk.bound (fun c u => pk.n.square.StandsFor c.value u)
      pk.plain pk.blinding where
  draw e := ⟨_, _, Entropy.outcome_bits _ e⟩
  check ha := by
    change pk.check _ = _
    rw [check, if_pos ha.contains]
  encryptWith {m} hm r := by
    refine ⟨pk.combine m (pk.powers.pow r), ?_, ?_⟩
    · change pk.encryptWith m r = _
      rw [PublicKey.encryptWith, checkPlaintext, if_pos hm]
      rfl
    · exact (pk.standsFor_encode m).mul (pk.standsFor_powers r)
  encryptWith_beyond hm r := ⟨_, pk.encryptWith_of_lt hm r⟩
  add {a b u w} ha hb := by
    refine ⟨_, ?_, ha.mul hb⟩
    change pk.add a b = _
    rw [PublicKey.add, check, check, if_pos ha.contains, if_pos hb.contains]
    rfl
  sub {a b u w} ha hb := by
    obtain ⟨x, hx, hinv⟩ := hb.inv
    refine ⟨⟨pk.n.square.mul a.value x⟩, ?_, sub_eq_add_neg u w ▸ ha.mul hinv⟩
    change pk.sub a b = _
    rw [PublicKey.sub, check, check, if_pos ha.contains, if_pos hb.contains, hx]
    rfl
  negate {a u} ha := by
    obtain ⟨x, hx, hinv⟩ := ha.inv
    refine ⟨⟨x⟩, ?_, hinv⟩
    change pk.negate a = _
    rw [PublicKey.negate, check, if_pos ha.contains, hx]
    rfl
  addPlain {a u m} ha hm := by
    refine ⟨_, ?_, ha.mul (pk.standsFor_encode m)⟩
    change pk.addPlain a m = _
    rw [PublicKey.addPlain, check, checkPlaintext, if_pos ha.contains, if_pos hm]
    rfl
  addPlain_beyond ha hm := ⟨_, pk.addPlain_of_lt ha.contains hm⟩
  mul {a u k} ha hk := by
    obtain ⟨x, hx, hpow⟩ := ha.pow k
    refine ⟨⟨x⟩, ?_, hpow⟩
    change pk.mul a k = _
    rw [PublicKey.mul, check, checkPlaintext, if_pos ha.contains, if_pos hk, hx]
    rfl
  mul_beyond ha hk := ⟨_, pk.mul_of_lt ha.contains hk⟩
  blind {a u} ha r := by
    refine ⟨⟨pk.n.square.mul a.value (pk.powers.pow r)⟩, ?_, ha.mul (pk.standsFor_powers r)⟩
    change pk.blind a r = _
    rw [PublicKey.blind, check, if_pos ha.contains]
    rfl

end PublicKey

end Homomorphic.Paillier
