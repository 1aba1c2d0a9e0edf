import Homomorphic.FixedBase
import Homomorphic.Proofs.Residue

namespace Homomorphic.FixedBase

variable (m : Modulus)

theorem radix_eq : radix = 16 := rfl

theorem row_eq (step count : ℕ) {power : ℕ} (h : power < m.value) :
    row m step count power = (List.range count).map fun d => power * step ^ d % m.value := by
  induction count generalizing power with
  | zero => rfl
  | succ count ih =>
    rw [row, ih (m.mul_lt _ _), List.range_succ_eq_map, List.map_cons, List.map_map, pow_zero,
      mul_one, Nat.mod_eq_of_lt h]
    congr 1
    refine List.map_congr_left fun d _ => ?_
    rw [Function.comp_apply, Modulus.mul, Nat.mod_mul_mod, mul_assoc, ← pow_succ']

theorem getLastD_row (step count : ℕ) {power : ℕ} (h : power < m.value) :
    (row m step (count + 1) power).getLastD 0 = power * step ^ count % m.value := by
  rw [row_eq m _ _ h, List.range_succ, List.map_append, List.map_singleton, List.getLastD_concat]

theorem getD_row (step count : ℕ) {power i : ℕ} (h : power < m.value) (hi : i < count) :
    (row m step count power).getD i 0 = power * step ^ i % m.value := by
  rw [row_eq m _ _ h, List.getD_eq_getElem _ _ (by simpa using hi), List.getElem_map,
    List.getElem_range]

theorem mul_getLastD_row {step : ℕ} (h : step < m.value) :
    m.mul ((row m step (radix - 1) step).getLastD 0) step = step ^ radix % m.value := by
  rw [show radix - 1 = 14 + 1 from rfl, getLastD_row m _ _ h, Modulus.mul, Nat.mod_mul_mod,
    ← pow_succ', ← pow_succ, radix_eq]

theorem rowsFrom_eq (count : ℕ) {step : ℕ} (h : step < m.value) :
    rowsFrom m count step = (List.range count).map fun i =>
      (List.range (radix - 1)).map fun d => step ^ ((d + 1) * radix ^ i) % m.value := by
  induction count generalizing step with
  | zero => rfl
  | succ count ih =>
    rw [rowsFrom, mul_getLastD_row m h, ih (Nat.mod_lt _ m.value_pos), row_eq m _ _ h,
      List.range_succ_eq_map, List.map_cons, List.map_map]
    congr 1
    · refine List.map_congr_left fun d _ => ?_
      rw [pow_zero, mul_one, pow_succ']
    · refine List.map_congr_left fun i _ => ?_
      rw [Function.comp_apply]
      refine List.map_congr_left fun d _ => ?_
      rw [← Nat.pow_mod, ← pow_mul, pow_succ', mul_left_comm]

theorem bitsFrom_eq (n start count : ℕ) : bitsFrom n start count = n / 2 ^ start % 2 ^ count := by
  rw [bitsFrom]
  induction count with
  | zero => simp [Nat.mod_one]
  | succ count ih =>
    have hlow : n / 2 ^ start % 2 ^ count < 2 ^ count := Nat.mod_lt _ (Nat.two_pow_pos count)
    have hbit : n.testBit (start + count) = (n / 2 ^ start).testBit count := by
      rw [Nat.testBit_div_two_pow, add_comm]
    have hsplit : n / 2 ^ start % 2 ^ (count + 1) =
        n / 2 ^ start % 2 ^ count + 2 ^ count * ((n / 2 ^ start).testBit count).toNat := by
      rw [Nat.pow_succ, Nat.mod_mul, Nat.toNat_testBit]
    rw [List.range_succ, List.foldl_append, ih, List.foldl_cons, List.foldl_nil, hbit, hsplit]
    by_cases hset : (n / 2 ^ start).testBit count
    · rw [if_pos hset, hset, Nat.one_shiftLeft, Nat.or_comm, Bool.toNat_true, add_comm,
        Nat.two_pow_add_eq_or_of_lt hlow, mul_one]
    · simp [hset]

theorem windowDigit_eq (exponent window : ℕ) :
    windowDigit exponent window = exponent / radix ^ window % radix := by
  rw [windowDigit, bitsFrom_eq, mul_comm, pow_mul]
  rfl

theorem mul_entry_modEq {step digit : ℕ} (acc : ℕ) (hstep : step < m.value) (hdigit : digit < radix) :
    (if digit = 0 then acc else m.mul acc ((row m step (radix - 1) step).getD (digit - 1) 0)) ≡
      acc * step ^ digit [MOD m.value] := by
  by_cases hzero : digit = 0
  · rw [if_pos hzero, hzero, pow_zero, mul_one]
  · have hpow : digit - 1 + 1 = digit := by omega
    rw [if_neg hzero, getD_row m _ _ hstep (by omega), ← pow_succ', hpow]
    exact (Nat.mod_modEq _ _).trans ((Nat.mod_modEq _ _).mul_left _)

theorem product_modEq (count : ℕ) {step exponent window : ℕ} (acc : ℕ) (hstep : step < m.value)
    (h : exponent / radix ^ window < radix ^ count) :
    product m exponent (rowsFrom m count step) window acc ≡
      acc * step ^ (exponent / radix ^ window) [MOD m.value] := by
  induction count generalizing step window acc with
  | zero =>
    have he : exponent / radix ^ window = 0 := by simpa using h
    rw [rowsFrom, product, he, pow_zero, mul_one]
  | succ count ih =>
    -- The windows above the first one hold the quotient by the radix, and the rows above the first one
    -- are those of the next digit weight.
    have hnext : exponent / radix ^ (window + 1) = exponent / radix ^ window / radix := by
      rw [pow_succ, Nat.div_div_eq_div_mul]
    have hrest : exponent / radix ^ (window + 1) < radix ^ count := by
      rw [hnext]
      apply Nat.div_lt_of_lt_mul
      rwa [← pow_succ']
    have hdigit : windowDigit exponent window < radix := by
      rw [windowDigit_eq]
      exact Nat.mod_lt _ (by decide)
    rw [rowsFrom, product, mul_getLastD_row m hstep]
    calc product m exponent (rowsFrom m count (step ^ radix % m.value)) (window + 1) _
        ≡ _ * (step ^ radix % m.value) ^ (exponent / radix ^ (window + 1)) [MOD m.value] :=
          ih _ (Nat.mod_lt _ m.value_pos) hrest
      _ ≡ acc * step ^ windowDigit exponent window *
            (step ^ radix) ^ (exponent / radix ^ (window + 1)) [MOD m.value] :=
          (mul_entry_modEq m acc hstep hdigit).mul ((Nat.mod_modEq _ _).pow _)
      _ = acc * step ^ (exponent / radix ^ window) := by
          rw [← pow_mul, mul_assoc, ← pow_add, windowDigit_eq, hnext, Nat.mod_add_div]

theorem rows_build (base maxBits : ℕ) :
    (build base m maxBits).rows = (List.range (ceilDiv maxBits Limits.windowBits)).map fun i =>
      (List.range (radix - 1)).map fun d => base ^ ((d + 1) * radix ^ i) % m.value := by
  change rowsFrom m _ (base % m.value) = _
  rw [rowsFrom_eq m _ (Nat.mod_lt _ m.value_pos)]
  simp only [← Nat.pow_mod]

theorem lt_radix_pow {maxBits exponent : ℕ} (h : bitLength exponent ≤ maxBits) :
    exponent < radix ^ ceilDiv maxBits Limits.windowBits := by
  rw [show radix = 2 ^ 4 from rfl, ← pow_mul]
  apply (bitLength_le.mp h).trans_le
  apply Nat.pow_le_pow_right (by omega)
  simp only [ceilDiv, Limits.windowBits]
  omega

theorem build_pow (base maxBits exponent : ℕ) :
    (build base m maxBits).pow exponent = base ^ exponent % m.value := by
  change (if maxBits < bitLength exponent then m.natPow (m.reduce base) exponent
    else m.reduce (product m exponent (rowsFrom m (ceilDiv maxBits Limits.windowBits) (m.reduce base))
      0 1)) = _
  by_cases hwide : maxBits < bitLength exponent
  · rw [if_pos hwide, Modulus.natPow, powMod_eq, Modulus.reduce, ← Nat.pow_mod]
  · have hfits : exponent / radix ^ 0 < radix ^ ceilDiv maxBits Limits.windowBits := by
      rw [pow_zero, Nat.div_one]
      exact lt_radix_pow (Nat.le_of_not_lt hwide)
    have hproduct := product_modEq m _ 1 (Nat.mod_lt base m.value_pos) hfits
    rw [one_mul, pow_zero, Nat.div_one] at hproduct
    rw [if_neg hwide]
    exact hproduct.trans ((Nat.mod_modEq base m.value).pow exponent)

theorem build_tabulates_powers (base maxBits exponent : ℕ) :
    let t := build base m maxBits
    t.rows = (List.range (ceilDiv maxBits 4)).map (fun i =>
        (List.range 15).map fun d => base ^ ((d + 1) * 16 ^ i) % m.value) ∧
      t.pow exponent = base ^ exponent % m.value :=
  ⟨rows_build m base maxBits, build_pow m base maxBits exponent⟩

end Homomorphic.FixedBase
