import Homomorphic.OkamotoUchiyama.Cipher
import Homomorphic.Proofs.OkamotoUchiyama.Key
import Homomorphic.Proofs.Realization
import Homomorphic.Proofs.ResidueUnits
import Homomorphic.Proofs.Sampling

namespace Homomorphic.OkamotoUchiyama

theorem Ciphertext.ext {a b : Ciphertext} (h : a.value = b.value) : a = b := by
  cases a
  cases b
  exact congrArg mk h

namespace PublicKey

open Modulus

variable (pk : PublicKey)

theorem gPowers_pow (k : ℕ) : pk.gPowers.pow k = pk.g ^ k % pk.n.value := by
  rw [pk.gPowers_eq, FixedBase.build_pow]

theorem hPowers_pow (r : ℕ) : pk.hPowers.pow r = pk.h ^ r % pk.n.value := by
  rw [pk.hPowers_eq, FixedBase.build_pow]

theorem isUnit_g : IsUnit (pk.g : ZMod pk.n.value) := (ZMod.isUnit_iff_coprime _ _).mpr pk.unitG.2

theorem isUnit_h : IsUnit (pk.h : ZMod pk.n.value) := (ZMod.isUnit_iff_coprime _ _).mpr pk.unitH.2

noncomputable def plain : UnitGroup pk.n.value := .ofMul pk.isUnit_g.unit

noncomputable def blinding : UnitGroup pk.n.value := .ofMul pk.isUnit_h.unit

theorem standsFor_gPowers (k : ℕ) : pk.n.StandsFor (pk.gPowers.pow k) (k • pk.plain) := by
  rw [gPowers_pow]
  exact .of_pow rfl k

theorem standsFor_hPowers (r : ℕ) : pk.n.StandsFor (pk.hPowers.pow r) (r • pk.blinding) := by
  rw [hPowers_pow]
  exact .of_pow rfl r

theorem exists_encode (m : ℤ) : ∃ x, pk.encode m = .ok x ∧ pk.n.StandsFor x (m • pk.plain) := by
  have hpositive := pk.standsFor_gPowers m.natAbs
  rw [← natCast_zsmul] at hpositive
  by_cases hm : m < 0
  · obtain ⟨x, hx, hinv⟩ := hpositive.inv
    refine ⟨x, ?_, ?_⟩
    · rw [encode, if_pos hm]
      exact hx
    · rwa [Int.ofNat_natAbs_of_nonpos hm.le, neg_zsmul, neg_neg] at hinv
  · refine ⟨pk.gPowers.pow m.natAbs, ?_, ?_⟩
    · rw [encode, if_neg hm]
    · rwa [Int.natAbs_of_nonneg (not_lt.mp hm)] at hpositive

theorem encryptWith_of_lt {m : ℤ} (hm : pk.bound < m.natAbs) (r : ℕ) :
    pk.encryptWith m r = .error (.domain (.beyondBits (bitLength pk.bound))) := by
  rw [PublicKey.encryptWith, checkPlaintext, if_neg (Nat.not_le_of_lt hm)]
  rfl

theorem addPlain_of_lt {a : Ciphertext} (ha : pk.n.contains a.value = true) {m : ℤ}
    (hm : pk.bound < m.natAbs) :
    pk.addPlain a m = .error (.domain (.beyondBits (bitLength pk.bound))) := by
  rw [PublicKey.addPlain, check, checkPlaintext, if_pos ha, if_neg (Nat.not_le_of_lt hm)]
  rfl

theorem mul_of_lt {a : Ciphertext} (ha : pk.n.contains a.value = true) {k : ℤ}
    (hk : pk.bound < k.natAbs) :
    pk.mul a k = .error (.domain (.beyondBits (bitLength pk.bound))) := by
  rw [PublicKey.mul, check, checkPlaintext, if_pos ha, if_neg (Nat.not_le_of_lt hk)]
  rfl

theorem realizes :
    pk.operations.Realizes pk.bound (fun c u => pk.n.StandsFor c.value u) pk.plain pk.blinding where
  draw e := ⟨_, _, Entropy.outcome_bits _ e⟩
  check ha := by
    change pk.check _ = _
    rw [check, if_pos ha.contains]
  encryptWith {m} hm r := by
    obtain ⟨x, hx, hplain⟩ := pk.exists_encode m
    refine ⟨⟨pk.n.mul x (pk.hPowers.pow r)⟩, ?_, hplain.mul (pk.standsFor_hPowers r)⟩
    change pk.encryptWith m r = _
    rw [PublicKey.encryptWith, checkPlaintext, if_pos hm, hx]
    rfl
  encryptWith_beyond hm r := ⟨_, pk.encryptWith_of_lt hm r⟩
  add {a b u w} ha hb := by
    refine ⟨_, ?_, ha.mul hb⟩
    change pk.add a b = _
    rw [PublicKey.add, check, check, if_pos ha.contains, if_pos hb.contains]
    rfl
  sub {a b u w} ha hb := by
    obtain ⟨x, hx, hinv⟩ := hb.inv
    refine ⟨⟨pk.n.mul a.value x⟩, ?_, sub_eq_add_neg u w ▸ ha.mul hinv⟩
    change pk.sub a b = _
    rw [PublicKey.sub, check, check, if_pos ha.contains, if_pos hb.contains, hx]
    rfl
  negate {a u} ha := by
    obtain ⟨x, hx, hinv⟩ := ha.inv
    refine ⟨⟨x⟩, ?_, hinv⟩
    change pk.negate a = _
    rw [PublicKey.negate, check, if_pos ha.contains, hx]
    rfl
  addPlain {a u m} ha hm := by
    obtain ⟨x, hx, hplain⟩ := pk.exists_encode m
    refine ⟨⟨pk.n.mul a.value x⟩, ?_, ha.mul hplain⟩
    change pk.addPlain a m = _
    rw [PublicKey.addPlain, check, checkPlaintext, if_pos ha.contains, if_pos hm, hx]
    rfl
  addPlain_beyond ha hm := ⟨_, pk.addPlain_of_lt ha.contains hm⟩
  mul {a u k} ha hk := by
    obtain ⟨x, hx, hpow⟩ := ha.pow k
    refine ⟨⟨x⟩, ?_, hpow⟩
    change pk.mul a k = _
    rw [PublicKey.mul, check, checkPlaintext, if_pos ha.contains, if_pos hk, hx]
    rfl
  mul_beyond ha hk := ⟨_, pk.mul_of_lt ha.contains hk⟩
  blind {a u} ha r := by
    refine ⟨⟨pk.n.mul a.value (pk.hPowers.pow r)⟩, ?_, ha.mul (pk.standsFor_hPowers r)⟩
    change pk.blind a r = _
    rw [PublicKey.blind, check, if_pos ha.contains]
    rfl

end PublicKey

end Homomorphic.OkamotoUchiyama
