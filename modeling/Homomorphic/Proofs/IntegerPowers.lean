import Homomorphic.Proofs.Outcome
import Homomorphic.Proofs.ResidueUnits

namespace Homomorphic.Modulus

variable (m : Modulus) {b : ℕ}

theorem reduce_reduce (b : ℕ) : m.reduce (m.reduce b) = m.reduce b := Nat.mod_mod b m.value

theorem inv_reduce (b : ℕ) : m.inv (m.reduce b) = m.inv b := by
  rw [inv, inv, reduce_reduce]

theorem natPow_reduce (b e : ℕ) : m.natPow (m.reduce b) e = m.natPow b e := by
  rw [natPow, natPow, powMod_eq, powMod_eq, reduce, ← Nat.pow_mod]

theorem pow_reduce (b : ℕ) (k : ℤ) : m.pow (m.reduce b) k = m.pow b k := by
  rw [pow, pow, inv_reduce, natPow_reduce]

theorem pow_one_eq (b : ℕ) : m.pow b 1 = .ok (m.reduce b) := by
  rw [pow_of_nonneg m b (by decide), natPow, powMod_eq]
  simp [reduce]

theorem pow_lt {k : ℤ} {x : ℕ} (h : m.pow b k = .ok x) : x < m.value := by
  rw [pow] at h
  split at h
  · obtain ⟨y, -, hy⟩ := bind_eq_ok.mp h
    cases hy
    exact m.natPow_lt y _
  · cases h
    exact m.natPow_lt b _

theorem exists_pow_standsFor (hb : Nat.Coprime b m.value) :
    ∃ u : UnitGroup m.value, ∀ k : ℤ, ∃ x, m.pow b k = .ok x ∧ m.StandsFor x (k • u) := by
  have hunit : IsUnit (m.reduce b : ZMod m.value) :=
    (ZMod.isUnit_iff_coprime _ _).mpr ((ZMod.coprime_mod_iff_coprime _ _).mpr hb)
  obtain ⟨u, hu⟩ := exists_standsFor (Nat.mod_lt b m.value_pos) hunit
  refine ⟨u, fun k => ?_⟩
  rw [← pow_reduce]
  exact hu.pow k

theorem pow_eq_error {k : ℤ} {error : Error} : m.pow b k = .error error ↔
    (k < 0 ∧ ¬ Nat.Coprime b m.value) ∧ error = .noInverse (m.reduce b) m.value := by
  by_cases hb : Nat.Coprime b m.value
  · obtain ⟨u, hu⟩ := m.exists_pow_standsFor hb
    obtain ⟨x, hx, -⟩ := hu k
    rw [hx]
    exact iff_of_false (by rintro ⟨⟩) fun h => h.1.2 hb
  by_cases hk : k < 0
  · rw [pow, if_pos hk, m.inv_of_not_coprime hb]
    constructor
    · rintro ⟨⟩
      exact ⟨⟨hk, hb⟩, rfl⟩
    · rintro ⟨-, rfl⟩
      rfl
  · rw [pow_of_nonneg m b (not_lt.mp hk)]
    exact iff_of_false (by rintro ⟨⟩) fun h => hk h.1.1

section Coprime

variable {m} (hb : Nat.Coprime b m.value) (i j : ℤ)

include hb

theorem pow_add_eq : m.pow b (i + j) = do return m.mul (← m.pow b i) (← m.pow b j) := by
  obtain ⟨u, hu⟩ := m.exists_pow_standsFor hb
  obtain ⟨x, hx, hxu⟩ := hu i
  obtain ⟨y, hy, hyu⟩ := hu j
  obtain ⟨z, hz, hzu⟩ := hu (i + j)
  rw [add_zsmul] at hzu
  rw [hx, hy, hz, hzu.eq (hxu.mul hyu)]
  rfl

theorem pow_mul_eq : m.pow b (i * j) = m.pow b i >>= fun x => m.pow x j := by
  obtain ⟨u, hu⟩ := m.exists_pow_standsFor hb
  obtain ⟨x, hx, hxu⟩ := hu i
  obtain ⟨y, hy, hyu⟩ := hxu.pow j
  obtain ⟨z, hz, hzu⟩ := hu (i * j)
  rw [mul_zsmul'] at hzu
  rw [hx, hz, hzu.eq hyu, ← hy]
  rfl

theorem pow_neg_eq : m.pow b (-i) = m.pow b i >>= m.inv := by
  obtain ⟨u, hu⟩ := m.exists_pow_standsFor hb
  obtain ⟨x, hx, hxu⟩ := hu i
  obtain ⟨y, hy, hyu⟩ := hxu.inv
  obtain ⟨z, hz, hzu⟩ := hu (-i)
  rw [neg_zsmul] at hzu
  rw [hx, hz, hzu.eq hyu, ← hy]
  rfl

end Coprime

theorem pow_obeys_laws (m : Modulus) (b : ℕ) :
    (∀ i error, m.pow b i = .error error ↔
      (i < 0 ∧ ¬ Nat.Coprime b m.value) ∧ error = .noInverse (m.reduce b) m.value) ∧
    (∀ i x, m.pow b i = .ok x → x < m.value) ∧
    m.pow b 1 = .ok (m.reduce b) ∧
    (Nat.Coprime b m.value → ∀ i j : ℤ,
      (m.pow b (i + j) = do return m.mul (← m.pow b i) (← m.pow b j)) ∧
      m.pow b (i * j) = (m.pow b i >>= fun x => m.pow x j) ∧
      m.pow b (-i) = m.pow b i >>= m.inv) :=
  ⟨fun _ _ => m.pow_eq_error, fun _ _ => m.pow_lt, m.pow_one_eq b,
    fun hb i j => ⟨pow_add_eq hb i j, pow_mul_eq hb i j, pow_neg_eq hb i⟩⟩

theorem pow_obeys_laws_twenty : ∃ m : Modulus, m.value = 20 ∧ m.pow 43 (2 + -5) = .ok 3 ∧
    m.pow 43 (2 * -5) = .ok 9 ∧ m.pow 43 (-2) = .ok 9 ∧
    m.pow 45 (-1) = .error (.noInverse 5 20) := by
  let m : Modulus := ⟨20, by decide⟩
  obtain ⟨hadd, hmul, hneg⟩ := (pow_obeys_laws m 43).2.2.2 (by decide) 2 (-5)
  exact ⟨m, rfl, hadd.trans (by cbv), hmul.trans (by cbv), hneg.trans (by cbv),
    ((pow_obeys_laws m 45).1 (-1) _).mpr ⟨⟨by decide, by decide⟩, by decide⟩⟩

end Homomorphic.Modulus
