namespace Homomorphic

def bezout (r r' : Nat) (s s' : Int) : Nat × Int :=
  if r' = 0 then (r, s) else bezout r' (r % r') s' (s - (r / r' : Nat) * s')
termination_by r'
decreasing_by exact Nat.mod_lt _ (by omega)

def modInverse? (a m : Nat) : Option Nat :=
  let (g, s) := bezout (a % m) m 1 0
  if g = 1 then some (s % (m : Int)).toNat else none

/-- The quotient `(u - 1) / d`, the discrete logarithm of `u` to the base `1 + d` modulo `d ^ 2`;
it is zero at zero. -/
def shiftedQuotient (u d : Nat) : Nat := (u - 1) / d

def shiftedQuotient? (u d : Nat) : Option Nat :=
  if u ≠ 0 ∧ d = 0 then none else some (shiftedQuotient u d)

end Homomorphic
