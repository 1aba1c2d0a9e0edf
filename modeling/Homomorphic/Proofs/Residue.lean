import Homomorphic.Modulus
import Homomorphic.Number.Laws
import Homomorphic.Proofs.Inverse

namespace Homomorphic

/-- `m` is the only integer of `range` that is congruent to `v` modulo `n`. -/
def IsOnlyIn (range : Set ℤ) (n : ℕ) (v m : ℤ) : Prop := ∀ x, x ∈ range ∧ x ≡ v [ZMOD n] ↔ x = m

def symmetricRange (n : ℕ) : Set ℤ := {x | -(n : ℤ) < 2 * x ∧ 2 * x ≤ n}

theorem eq_of_modEq_of_lt {n : ℕ} {x y : ℤ} (h : x ≡ y [ZMOD n]) (hlow : -(n : ℤ) < y - x)
    (hhigh : y - x < n) : x = y := by
  have hzero := Int.eq_zero_of_abs_lt_dvd h.dvd (abs_lt.mpr ⟨hlow, hhigh⟩)
  omega

theorem IsOnlyIn.congr {range : Set ℤ} {n : ℕ} {v w m : ℤ} (h : IsOnlyIn range n v m)
    (hvw : v ≡ w [ZMOD n]) : IsOnlyIn range n w m := by
  intro x
  rw [← h x]
  exact and_congr_right fun _ => ⟨fun hx => hx.trans hvw.symm, fun hx => hx.trans hvw⟩

theorem mem_symmetricRange {n : ℕ} {x : ℤ} :
    x ∈ symmetricRange n ↔ -(n : ℤ) < 2 * x ∧ 2 * x ≤ n := Iff.rfl

theorem IsOnlyIn.eq_of_natAbs {n : ℕ} {v m : ℤ} (h : IsOnlyIn (symmetricRange n) n v m)
    (hv : 2 * v.natAbs < n) : m = v := by
  refine ((h v).mp ⟨?_, Int.ModEq.refl v⟩).symm
  rw [mem_symmetricRange]
  omega

theorem symmetricRange_of_odd {n : ℕ} (h : n % 2 = 1) :
    symmetricRange n = Set.Icc (-(((n : ℤ) - 1) / 2)) (((n : ℤ) - 1) / 2) := by
  ext x
  rw [mem_symmetricRange, Set.mem_Icc]
  omega

theorem cast_mod {R : Type} [CommRing R] {m : ℕ} (hm : (m : R) = 0) (a : ℕ) :
    ((a % m : ℕ) : R) = a := by
  have hdiv := congrArg (Nat.cast : ℕ → R) (Nat.mod_add_div a m)
  rwa [Nat.cast_add, Nat.cast_mul, hm, zero_mul, add_zero] at hdiv

namespace Modulus

variable (m : Modulus)

theorem ext {m k : Modulus} (h : m.value = k.value) : m = k := by
  cases m
  cases k
  simpa using h

theorem of_eq_ok {value : ℕ} (h : 1 < value) : of value = .ok ⟨value, h⟩ := dif_pos h

theorem value_pos : 0 < m.value := Nat.lt_trans Nat.zero_lt_one m.one_lt

instance : NeZero m.value := ⟨m.value_pos.ne'⟩

instance : Fact (1 < m.value) := ⟨m.one_lt⟩

@[simp] theorem square_value : m.square.value = m.value * m.value := rfl

theorem cast_square : (m.square.value : ZMod (m.value * m.value)) = 0 := ZMod.natCast_self _

theorem mul_lt (a b : ℕ) : m.mul a b < m.value := Nat.mod_lt _ m.value_pos

theorem natPow_lt (b e : ℕ) : m.natPow b e < m.value := by
  rw [natPow, powMod_eq]
  exact Nat.mod_lt _ m.value_pos

theorem add_lt (a b : ℕ) : m.add a b < m.value := Nat.mod_lt _ m.value_pos

theorem natCast_normalize (x : ℤ) : (m.normalize x : ℤ) = x % m.value :=
  Int.toNat_of_nonneg (Int.emod_nonneg x (mod_cast m.value_pos.ne'))

theorem normalize_congr (x : ℤ) : (m.normalize x : ℤ) ≡ x [ZMOD m.value] := by
  rw [natCast_normalize]
  exact Int.mod_modEq x m.value

theorem normalize_lt (x : ℤ) : m.normalize x < m.value := by
  have hlt := Int.emod_lt_of_pos x (show (0 : ℤ) < m.value from mod_cast m.value_pos)
  rw [← natCast_normalize] at hlt
  exact mod_cast hlt

section Cast

variable {R : Type} [CommRing R] {m} (hm : (m.value : R) = 0)

include hm

theorem cast_reduce (a : ℕ) : (m.reduce a : R) = a := cast_mod hm a

theorem cast_mul (a b : ℕ) : (m.mul a b : R) = a * b := by
  rw [mul, cast_mod hm, Nat.cast_mul]

theorem cast_add (a b : ℕ) : (m.add a b : R) = a + b := by
  rw [add, cast_mod hm, Nat.cast_add]

theorem cast_sub (a b : ℕ) : (m.sub a b : R) = a - b := by
  have hle : m.reduce b ≤ m.reduce a + m.value :=
    (Nat.mod_lt b m.value_pos).le.trans (Nat.le_add_left _ _)
  rw [sub, cast_mod hm, Nat.cast_sub hle, Nat.cast_add, cast_reduce hm, cast_reduce hm, hm, add_zero]

theorem cast_neg (a : ℕ) : (m.neg a : R) = -a := by
  have hle : m.reduce a ≤ m.value := (Nat.mod_lt a m.value_pos).le
  rw [neg, cast_mod hm, Nat.cast_sub hle, cast_reduce hm, hm, zero_sub]

theorem cast_natPow (b e : ℕ) : (m.natPow b e : R) = (b : R) ^ e := by
  rw [natPow, powMod_eq, cast_mod hm, Nat.cast_pow]

theorem cast_normalize (x : ℤ) : (m.normalize x : R) = x := by
  have hdiv := congrArg (Int.cast : ℤ → R) (Int.emod_add_mul_ediv x m.value)
  rwa [Int.cast_add, Int.cast_mul, Int.cast_natCast, hm, zero_mul, add_zero, ← natCast_normalize,
    Int.cast_natCast] at hdiv

end Cast

theorem contains_iff (a : ℕ) : m.contains a = true ↔ 0 < a ∧ a < m.value := by
  simp [contains]

theorem check_eq_ok_iff {a : ℕ} {error : Error} :
    (if m.contains a then .ok () else .error error : Except Error Unit) = .ok () ↔
      0 < a ∧ a < m.value := by
  rw [← contains_iff]
  split
  · next h => simp only [h]
  · next h => simp only [h, reduceCtorEq]

theorem inv_of_coprime {a : ℕ} (h : Nat.Coprime a m.value) :
    ∃ x, m.inv a = .ok x ∧ x < m.value ∧ x * a % m.value = 1 := by
  have hreduced : Nat.Coprime (m.reduce a) m.value := (ZMod.coprime_mod_iff_coprime _ _).mpr h
  obtain ⟨x, hx, hlt, hmul⟩ := modInverse?_of_coprime m.value_pos hreduced
  rw [reduce, Nat.mul_mod_mod, Nat.mod_eq_of_lt m.one_lt] at hmul
  exact ⟨x, by simp only [inv, hx], hlt, hmul⟩

theorem inv_of_not_coprime {a : ℕ} (h : ¬ Nat.Coprime a m.value) :
    m.inv a = .error (.noInverse (m.reduce a) m.value) := by
  have hreduced : ¬ Nat.Coprime (m.reduce a) m.value := by
    rwa [reduce, ZMod.coprime_mod_iff_coprime]
  simp only [inv, modInverse?_of_not_coprime hreduced]

theorem pow_of_nonneg {k : ℤ} (b : ℕ) (hk : 0 ≤ k) : m.pow b k = .ok (m.natPow b k.natAbs) := by
  rw [pow, if_neg (by omega)]

theorem pow_of_neg {k : ℤ} {b x : ℕ} (hk : k < 0) (hx : m.inv b = .ok x) :
    m.pow b k = .ok (m.natPow x k.natAbs) := by
  rw [pow, if_pos hk, hx]
  rfl

theorem center_congr (a : ℕ) : m.center a ≡ a [ZMOD m.value] := by
  have hmod : ((m.reduce a : ℕ) : ℤ) ≡ a [ZMOD m.value] := by
    rw [reduce, Int.natCast_mod]
    exact Int.mod_modEq _ _
  simp only [center]
  split
  · exact (Int.modEq_iff_dvd.mpr ⟨1, by ring⟩).trans hmod
  · exact hmod

theorem center_mem (a : ℕ) : m.center a ∈ symmetricRange m.value := by
  have hlt : m.reduce a < m.value := Nat.mod_lt a m.value_pos
  rw [mem_symmetricRange]
  by_cases h : m.half < m.reduce a
  · simp only [center, h, ↓reduceIte]
    rw [half] at h
    omega
  · simp only [center, h, ↓reduceIte]
    rw [half] at h
    omega

theorem isOnlyIn_center (a : ℕ) : IsOnlyIn (symmetricRange m.value) m.value a (m.center a) := by
  intro x
  constructor
  · rintro ⟨⟨hlow, hhigh⟩, hx⟩
    obtain ⟨hlow', hhigh'⟩ := m.center_mem a
    exact eq_of_modEq_of_lt (hx.trans (m.center_congr a).symm) (by omega) (by omega)
  · rintro rfl
    exact ⟨m.center_mem a, m.center_congr a⟩

end Modulus

end Homomorphic
