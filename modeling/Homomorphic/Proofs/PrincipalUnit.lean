import Homomorphic.Proofs.ResidueUnits

/-!
The residues `1 + x * n` modulo `n * n`, whose products add the numbers `x` modulo `n`, and residues
with a power of this form, from which `shiftedQuotient` reads an integer. The operations of a modulus
that `n * n` divides take units that carry integers to units that carry their sums and multiples.
-/

namespace Homomorphic

def principalUnit (n : ℕ) (x : ℤ) : ZMod (n * n) := 1 + x * n

variable {n : ℕ}

theorem natCast_mul_self (n : ℕ) : (n : ZMod (n * n)) * n = 0 := by
  rw [← Nat.cast_mul, ZMod.natCast_self]

@[simp] theorem principalUnit_zero : principalUnit n 0 = 1 := by simp [principalUnit]

theorem principalUnit_mul (x y : ℤ) :
    principalUnit n x * principalUnit n y = principalUnit n (x + y) := by
  simp only [principalUnit, Int.cast_add]
  linear_combination (x : ZMod (n * n)) * y * natCast_mul_self n

theorem principalUnit_pow (x : ℤ) (k : ℕ) : principalUnit n x ^ k = principalUnit n (k * x) := by
  induction k with
  | zero => simp
  | succ k ih =>
    rw [pow_succ, ih, principalUnit_mul]
    congr 1
    push_cast
    ring

def principal (n : ℕ) : ℤ →+ Modulus.UnitGroup (n * n) where
  toFun x := .ofMul {
    val := principalUnit n x
    inv := principalUnit n (-x)
    val_inv := by rw [principalUnit_mul, add_neg_cancel, principalUnit_zero]
    inv_val := by rw [principalUnit_mul, neg_add_cancel, principalUnit_zero] }
  map_zero' := congrArg Additive.ofMul (Units.ext principalUnit_zero)
  map_add' x y := congrArg Additive.ofMul (Units.ext (principalUnit_mul x y).symm)

theorem zsmul_principal_one (x : ℤ) : x • principal n 1 = principal n x := by
  rw [← map_zsmul, smul_eq_mul, mul_one]

theorem principalUnit_congr {x y : ℤ} (h : x ≡ y [ZMOD n]) : principalUnit n x = principalUnit n y := by
  obtain ⟨k, hk⟩ := h.dvd
  rw [principalUnit, principalUnit, show y = x + n * k by omega]
  push_cast
  linear_combination -(k : ZMod (n * n)) * natCast_mul_self n

theorem shiftedQuotient_of_cast {u : ℕ} {x : ℤ} (hn : 1 < n) (hu : u < n * n)
    (h : (u : ZMod (n * n)) = principalUnit n x) : (shiftedQuotient u n : ℤ) = x % n := by
  have hnonneg := Int.emod_nonneg x (show (n : ℤ) ≠ 0 by omega)
  have hlt := Int.emod_lt_of_pos x (show (0 : ℤ) < n by omega)
  obtain ⟨y, hy⟩ := Int.eq_ofNat_of_zero_le hnonneg
  have hyn : y < n := by omega
  have hsmall : 1 + y * n < n * n := by nlinarith
  have hcast : (u : ZMod (n * n)) = (1 + y * n : ℕ) := by
    rw [h, principalUnit_congr (Int.mod_modEq x n).symm, hy, principalUnit]
    push_cast
    ring
  have hu' : u = 1 + y * n := by
    rw [ZMod.natCast_eq_natCast_iff', Nat.mod_eq_of_lt hu, Nat.mod_eq_of_lt hsmall] at hcast
    exact hcast
  rw [hy, hu', shiftedQuotient, Nat.add_sub_cancel_left, Nat.mul_div_cancel _ (by omega)]

def Carries (exponent : ℕ) (slope : ℤ) (c : ZMod (n * n)) (v : ℤ) : Prop :=
  c ^ exponent = principalUnit n (slope * v)

namespace Carries

variable {exponent : ℕ} {slope v w : ℤ} {c d : ZMod (n * n)}

theorem zero (slope : ℤ) (h : c ^ exponent = 1) : Carries exponent slope c 0 := by
  rw [Carries, h, mul_zero, principalUnit_zero]

theorem mul (hc : Carries exponent slope c v) (hd : Carries exponent slope d w) :
    Carries exponent slope (c * d) (v + w) := by
  rw [Carries, mul_pow, hc, hd, principalUnit_mul, mul_add]

theorem inv (hc : Carries exponent slope c v) (hd : d * c = 1) : Carries exponent slope d (-v) := by
  have hinverse : principalUnit n (slope * v) * principalUnit n (slope * -v) = 1 := by
    rw [principalUnit_mul, mul_neg, add_neg_cancel, principalUnit_zero]
  calc d ^ exponent
      = d ^ exponent * (c ^ exponent * principalUnit n (slope * -v)) := by rw [hc, hinverse, mul_one]
    _ = principalUnit n (slope * -v) := by rw [← mul_assoc, ← mul_pow, hd, one_pow, one_mul]

end Carries

def carried {m : Modulus} (hdvd : n * n ∣ m.value) (exponent : ℕ) (slope : ℤ) :
    AddSubgroup (Modulus.UnitGroup m.value × ℤ) where
  carrier := {x | Carries exponent slope (ZMod.castHom hdvd _ (x.1.toMul : (ZMod m.value)ˣ)) x.2}
  zero_mem' := by
    apply Carries.zero
    rw [Prod.fst_zero, toMul_zero, Units.val_one, map_one, one_pow]
  add_mem' {x y} hx hy := by
    have hmul := Carries.mul hx hy
    rwa [← map_mul, ← Units.val_mul, ← toMul_add] at hmul
  neg_mem' {x} hx := by
    apply Carries.inv hx
    rw [Prod.fst_neg, toMul_neg, ← map_mul, Units.inv_mul, map_one]

theorem mem_carried {m : Modulus} (hdvd : n * n ∣ m.value) {exponent : ℕ} {slope v : ℤ} {a : ℕ}
    {u : Modulus.UnitGroup m.value} (ha : (a : ZMod m.value) = (u.toMul : (ZMod m.value)ˣ)) :
    (u, v) ∈ carried hdvd exponent slope ↔ Carries (n := n) exponent slope a v := by
  change Carries exponent slope (ZMod.castHom hdvd _ (u.toMul : (ZMod m.value)ˣ)) v ↔ _
  rw [← ha, map_natCast]

theorem isOnlyIn_decode (m : Modulus) (slope : ℤ) {u mu : ℕ} {v : ℤ} (hu : u < m.value * m.value)
    (h : (u : ZMod (m.value * m.value)) = principalUnit m.value (slope * v))
    (hmu : slope * mu ≡ 1 [ZMOD m.value]) :
    IsOnlyIn (symmetricRange m.value) m.value v
      (m.center (m.mul (shiftedQuotient u m.value) mu)) := by
  apply (m.isOnlyIn_center _).congr
  have hquotient := shiftedQuotient_of_cast m.one_lt hu h
  calc ((m.mul (shiftedQuotient u m.value) mu : ℕ) : ℤ)
      ≡ (shiftedQuotient u m.value : ℤ) * mu [ZMOD m.value] := by
        rw [Modulus.mul, Int.natCast_mod, Nat.cast_mul]
        exact Int.mod_modEq _ _
    _ ≡ slope * v * mu [ZMOD m.value] := by
        rw [hquotient]
        exact (Int.mod_modEq _ _).mul_right _
    _ = slope * mu * v := by ring
    _ ≡ 1 * v [ZMOD m.value] := hmu.mul_right _
    _ = v := one_mul v

/-- A reduced unit modulo `m` that carries `v` modulo `n * n`. -/
structure Carrier (m : Modulus) (n exponent : ℕ) (slope : ℤ) (a : ℕ) (v : ℤ) : Prop where
  lt : a < m.value
  unit : IsUnit (a : ZMod m.value)
  carries : Carries (n := n) exponent slope a v

namespace Carrier

variable {m : Modulus} {exponent : ℕ} {slope v : ℤ} {a : ℕ}

theorem contains (ha : Carrier m n exponent slope a v) : m.contains a = true :=
  Modulus.contains_of_isUnit ha.lt ha.unit

theorem iff_standsFor (hdvd : n * n ∣ m.value) :
    (∃ u, m.StandsFor a u ∧ (u, v) ∈ carried hdvd exponent slope) ↔ Carrier m n exponent slope a v := by
  constructor
  · rintro ⟨u, ha, hu⟩
    exact ⟨ha.lt, ha.isUnit, (mem_carried hdvd ha.cast).mp hu⟩
  · intro h
    obtain ⟨u, ha⟩ := Modulus.exists_standsFor h.lt h.unit
    exact ⟨u, ha, (mem_carried hdvd ha.cast).mpr h.carries⟩

end Carrier

end Homomorphic
