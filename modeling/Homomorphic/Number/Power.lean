namespace Homomorphic

def powBits (b m : Nat) : Nat → Nat → Nat
  | 0, _ => 1 % m
  | bits + 1, e =>
    if e = 0 then 1 % m
    else
      let half := powBits b m bits (e / 2)
      let square := half * half % m
      if e % 2 = 1 then square * b % m else square

def powMod (b e m : Nat) : Nat := powBits (b % m) m (e.log2 + 1) e

end Homomorphic
