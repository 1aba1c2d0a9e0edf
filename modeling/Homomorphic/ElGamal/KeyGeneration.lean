import Homomorphic.ElGamal.Cipher

namespace Homomorphic.ElGamal

variable {E : PointGroup}

def keyCandidate (curve : NamedCurve) (maxPlaintext : UInt64) (tableBits : UInt32) :
    Draw (Option (SecretKey E × PublicKey E)) := do
  let x ← drawScalar E
  if x = 0 then return none
  let sk ← SecretKey.ofParts curve x maxPlaintext tableBits
  let pk ← sk.publicKey
  return some (sk, pk)

def generateWith (curve : NamedCurve) (maxPlaintext : UInt64) (tableBits : UInt32) :
    Draw (SecretKey E × PublicKey E) :=
  Draw.retry (keyCandidate curve maxPlaintext tableBits) (.randomnessExhausted .scalar)
    Limits.maxRandomAttempts

def generate : Draw (SecretKey E × PublicKey E) :=
  generateWith .ristretto255 (UInt64.ofNat Limits.defaultMaxPlaintext)
    (UInt32.ofNat Limits.defaultTableBits)

end Homomorphic.ElGamal
