import Homomorphic.Entropy.Sampling
import Homomorphic.Paillier.Key

namespace Homomorphic.Paillier

def keyCandidate (test : Nat → Bool) (keySize : Nat) : Draw (Option (SecretKey × PublicKey)) := do
  let p ← Entropy.prime test (ceilDiv keySize 2)
  let q ← Entropy.prime test (keySize / 2)
  if p = q ∨ Nat.gcd (p - 1) (q - 1) ≠ 2 then return none
  let sk ← SecretKey.ofPrimes test p q
  let x ← Entropy.unit sk.n.value
  let h := sk.n.neg (sk.n.mul x x)
  let pk ← PublicKey.ofParts sk.n.value (sk.powSquare h sk.n.value)
  return some (sk, pk)

def generate (test : Nat → Bool) (keySize : Nat) : Draw (SecretKey × PublicKey) :=
  if keySize < Limits.minKeySize then throw (.invalidParameters (.keySize keySize))
  else
    Draw.retry (keyCandidate test keySize) (.keyGeneration (.suitable "Paillier primes"))
      Limits.maxKeygenAttempts

end Homomorphic.Paillier
