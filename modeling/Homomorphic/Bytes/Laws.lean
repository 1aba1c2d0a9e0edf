import Homomorphic.Bytes
import Mathlib

namespace Homomorphic.Bytes

theorem length_lowBytes (count n : Nat) : (lowBytes count n).length = count := by
  induction count generalizing n with
  | zero => rfl
  | succ count ih => simp [lowBytes, ih]

theorem lowBytes_append (low high n : Nat) :
    lowBytes low (n % 256 ^ low) ++ lowBytes high (n / 256 ^ low) = lowBytes (low + high) n := by
  induction low generalizing n with
  | zero => simp [lowBytes]
  | succ low ih =>
    rw [Nat.add_right_comm, lowBytes, lowBytes, ← ih (n / 256), List.cons_append,
      Nat.pow_succ', Nat.mod_mul_right_div_self, Nat.div_div_eq_div_mul]
    congr 1
    refine UInt8.toNat.inj ?_
    rw [UInt8.toNat_ofNat', UInt8.toNat_ofNat', Nat.mod_mod_of_dvd]
    exact Nat.dvd_mul_right _ _

theorem value_cons (b : UInt8) (bytes : Bytes) :
    value (b :: bytes) = b.toNat + 256 * value bytes := rfl

theorem value_append (a b : Bytes) : value (a ++ b) = value a + 256 ^ a.length * value b := by
  induction a with
  | nil => simp [value]
  | cons x a ih =>
    rw [List.cons_append, value_cons, value_cons, ih, List.length_cons, pow_succ]
    ring

theorem value_lowBytes (count n : Nat) : value (lowBytes count n) = n % 256 ^ count := by
  induction count generalizing n with
  | zero => simp [lowBytes, value, Nat.mod_one]
  | succ count ih =>
    have power : 256 ^ (count + 1) = 256 * 256 ^ count := pow_succ' 256 count
    rw [lowBytes, value_cons, ih, UInt8.toNat_ofNat', power]
    exact Nat.mod_mul.symm

theorem lowBytes_value (bytes : Bytes) : lowBytes bytes.length (value bytes) = bytes := by
  induction bytes with
  | nil => rfl
  | cons b bytes ih =>
    have hb := b.toNat_lt
    rw [List.length_cons, lowBytes, value_cons,
      show (b.toNat + 256 * value bytes) / 256 = value bytes by omega, ih]
    congr 1
    refine UInt8.toNat.inj ?_
    rw [UInt8.toNat_ofNat']
    omega

theorem value_lt (bytes : Bytes) : value bytes < 256 ^ bytes.length := by
  induction bytes with
  | nil => simp [value]
  | cons b bytes ih =>
    have hb := b.toNat_lt
    rw [value_cons, List.length_cons, pow_succ]
    omega

theorem splitBytes_eq (depth count n : Nat) : splitBytes depth count n = lowBytes count n := by
  induction depth generalizing count n with
  | zero => rfl
  | succ depth ih =>
    rw [splitBytes]
    split
    · rfl
    · have append := lowBytes_append (count / 2) (count - count / 2) n
      rw [Nat.add_sub_cancel' (Nat.div_le_self _ _)] at append
      simp only [ih, Nat.shiftRight_eq_div_pow, Nat.one_shiftLeft, pow_mul]
      exact append

theorem joinBytes_eq (depth : Nat) (bytes : Bytes) : joinBytes depth bytes = value bytes := by
  induction depth generalizing bytes with
  | zero => rfl
  | succ depth ih =>
    rw [joinBytes]
    split
    · rfl
    · have append := value_append (bytes.take (bytes.length / 2)) (bytes.drop (bytes.length / 2))
      rw [List.take_append_drop, List.length_take, Nat.min_eq_left (Nat.div_le_self _ _)] at append
      simp only [List.splitAt_eq, ih, Nat.shiftLeft_eq]
      rw [append, pow_mul, mul_comm (value _)]
      norm_num

theorem ofNat_eq_lowBytes (count n : Nat) : ofNat count n = lowBytes count n := splitBytes_eq ..

theorem toNat_eq_value (bytes : Bytes) : toNat bytes = value bytes := joinBytes_eq ..

theorem length_ofNat (count n : Nat) : (ofNat count n).length = count := by
  rw [ofNat_eq_lowBytes, length_lowBytes]

theorem toNat_ofNat (count n : Nat) : toNat (ofNat count n) = n % 256 ^ count := by
  rw [ofNat_eq_lowBytes, toNat_eq_value, value_lowBytes]

theorem ofNat_toNat (bytes : Bytes) : ofNat bytes.length (toNat bytes) = bytes := by
  rw [ofNat_eq_lowBytes, toNat_eq_value, lowBytes_value]

end Homomorphic.Bytes
