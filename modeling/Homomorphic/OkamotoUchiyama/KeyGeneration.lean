import Homomorphic.Entropy.Sampling
import Homomorphic.OkamotoUchiyama.Key

namespace Homomorphic.OkamotoUchiyama

def keyCandidate (test : Nat → Bool) (keySize : Nat) : Draw (Option (SecretKey × PublicKey)) := do
  let width := ceilDiv keySize 3
  let p ← Entropy.prime test width
  let q ← Entropy.prime test (keySize - 2 * width)
  if p = q then return none
  let modP ← Modulus.of p
  let n ← Modulus.of (p * p * q)
  if bitLength n.value ≠ keySize then return none
  let g ← Entropy.unit n.value
  if modP.square.natPow g (p - 1) = 1 then return none
  let gpInv ← modP.inv (logarithm modP g)
  let sk ← SecretKey.ofParts test p q gpInv
  let pk ← PublicKey.ofParts n.value g (n.natPow g n.value)
  return some (sk, pk)

def generate (test : Nat → Bool) (keySize : Nat) : Draw (SecretKey × PublicKey) :=
  if keySize < Limits.minKeySize then throw (.invalidParameters (.keySize keySize))
  else
    Draw.retry (keyCandidate test keySize) (.keyGeneration (.suitable "OU parameters"))
      Limits.maxKeygenAttempts

end Homomorphic.OkamotoUchiyama
