namespace Homomorphic

def bitLength (n : Nat) : Nat :=
  if n = 0 then 0 else n.log2 + 1

theorem bitLength_le_one {n : Nat} (h : n ≤ 1) : bitLength n ≤ 1 := by
  match n, h with
  | 0, _ => decide
  | 1, _ => decide

theorem one_lt_of_one_lt_bitLength {n : Nat} (h : 1 < bitLength n) : 1 < n :=
  Nat.lt_of_not_le fun hn => Nat.not_le_of_lt h (bitLength_le_one hn)

def ceilDiv (a b : Nat) : Nat := (a + (b - 1)) / b

end Homomorphic
