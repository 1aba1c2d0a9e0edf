import Homomorphic.Limits
import Homomorphic.Number.Bits

namespace Homomorphic

def markMultiples (i : Nat) (composite : Array Bool) : Array Bool :=
  (List.range' (i * i) (ceilDiv (composite.size - i * i) i) i).foldl
    (fun composite multiple => composite.setIfInBounds multiple true) composite

/-- The odd ones of the next `count` numbers from `i` on that are still unmarked at their turn. -/
def sieveFrom : Nat → Nat → Array Bool → List Nat
  | 0, _, _ => []
  | count + 1, i, composite =>
    if composite.getD i false then sieveFrom count (i + 1) composite
    else
      let primes := sieveFrom count (i + 1) (markMultiples i composite)
      if i = 2 then primes else i :: primes

def smallPrimes : List Nat :=
  sieveFrom (Limits.sieveLimit - 2) 2 (Array.replicate Limits.sieveLimit false)

def passesSieve (n : Nat) : List Nat → Bool
  | [] => true
  | p :: ps => if n = p then true else if n % p = 0 then false else passesSieve n ps

def isProbablePrime (test : Nat → Bool) (n : Nat) : Bool :=
  if n < 2 then false
  else if n % 2 = 0 then n = 2
  else passesSieve n smallPrimes && test n

theorem two_le_of_isProbablePrime {test : Nat → Bool} {n : Nat}
    (h : isProbablePrime test n = true) : 2 ≤ n := by
  unfold isProbablePrime at h
  split at h
  · contradiction
  · omega

end Homomorphic
