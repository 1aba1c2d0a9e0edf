import Homomorphic.Proofs.Residue

namespace Homomorphic.Modulus

abbrev UnitGroup (n : ℕ) := Additive (ZMod n)ˣ

structure StandsFor (m : Modulus) (a : ℕ) (u : UnitGroup m.value) : Prop where
  lt : a < m.value
  cast : (a : ZMod m.value) = (u.toMul : (ZMod m.value)ˣ)

variable {m : Modulus} {a b : ℕ} {u w : UnitGroup m.value}

theorem contains_of_isUnit (hlt : a < m.value) (h : IsUnit (a : ZMod m.value)) :
    m.contains a = true := by
  rw [contains_iff]
  refine ⟨Nat.pos_of_ne_zero ?_, hlt⟩
  rintro rfl
  rw [Nat.cast_zero] at h
  exact not_isUnit_zero h

theorem exists_standsFor (hlt : a < m.value) (h : IsUnit (a : ZMod m.value)) : ∃ u, m.StandsFor a u :=
  ⟨.ofMul h.unit, hlt, h.unit_spec.symm⟩

namespace StandsFor

theorem eq (ha : m.StandsFor a u) (hb : m.StandsFor b u) : a = b := by
  have hcast := ha.cast.trans hb.cast.symm
  rwa [ZMod.natCast_eq_natCast_iff', Nat.mod_eq_of_lt ha.lt, Nat.mod_eq_of_lt hb.lt] at hcast

theorem isUnit (ha : m.StandsFor a u) : IsUnit (a : ZMod m.value) := ha.cast ▸ u.toMul.isUnit

theorem contains (ha : m.StandsFor a u) : m.contains a = true := contains_of_isUnit ha.lt ha.isUnit

theorem mul (ha : m.StandsFor a u) (hb : m.StandsFor b w) : m.StandsFor (m.mul a b) (u + w) where
  lt := m.mul_lt a b
  cast := by rw [cast_mul (ZMod.natCast_self _), ha.cast, hb.cast, toMul_add, Units.val_mul]

theorem of_pow (ha : (a : ZMod m.value) = (u.toMul : (ZMod m.value)ˣ)) (k : ℕ) :
    m.StandsFor (a ^ k % m.value) (k • u) where
  lt := Nat.mod_lt _ m.value_pos
  cast := by rw [ZMod.natCast_mod, Nat.cast_pow, ha, toMul_nsmul, Units.val_pow_eq_pow_val]

theorem natPow (ha : m.StandsFor a u) (k : ℕ) : m.StandsFor (m.natPow a k) (k • u) := by
  rw [Modulus.natPow, powMod_eq]
  exact of_pow ha.cast k

theorem inv (ha : m.StandsFor a u) : ∃ x, m.inv a = .ok x ∧ m.StandsFor x (-u) := by
  obtain ⟨x, hx, hlt, hmul⟩ := m.inv_of_coprime ((ZMod.isUnit_iff_coprime a m.value).mp ha.isUnit)
  refine ⟨x, hx, hlt, ?_⟩
  have hcast : (x : ZMod m.value) * (u.toMul : (ZMod m.value)ˣ) = 1 := by
    rw [← ha.cast, ← Nat.cast_mul, ← ZMod.natCast_mod, hmul, Nat.cast_one]
  rw [toMul_neg]
  exact Units.eq_inv_of_mul_eq_one_right hcast

theorem pow (ha : m.StandsFor a u) (k : ℤ) : ∃ x, m.pow a k = .ok x ∧ m.StandsFor x (k • u) := by
  rcases lt_or_ge k 0 with hk | hk
  · obtain ⟨y, hy, hinv⟩ := ha.inv
    refine ⟨_, m.pow_of_neg hk hy, ?_⟩
    have hvalue : k.natAbs • -u = k • u := by
      rw [← natCast_zsmul, Int.ofNat_natAbs_of_nonpos hk.le, neg_smul, smul_neg, neg_neg]
    exact hvalue ▸ hinv.natPow k.natAbs
  · refine ⟨_, m.pow_of_nonneg a hk, ?_⟩
    have hvalue : k.natAbs • u = k • u := by rw [← natCast_zsmul, Int.natAbs_of_nonneg hk]
    exact hvalue ▸ ha.natPow k.natAbs

end StandsFor

end Homomorphic.Modulus
