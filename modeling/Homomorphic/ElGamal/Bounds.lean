import Homomorphic.Error
import Homomorphic.Limits

namespace Homomorphic.ElGamal

def checkMaxPlaintext (bound : UInt64) : Except Error Unit :=
  if bound.toNat = 0 ∨ Limits.maxMaxPlaintext < bound.toNat then
    .error (.invalidParameters (.maxPlaintext bound.toNat))
  else .ok ()

def checkTable (bound : UInt64) (tableBits : UInt32) : Except Error Unit := do
  checkMaxPlaintext bound
  if tableBits.toNat = 0 ∨ Limits.maxTableBits < tableBits.toNat then
    throw (.invalidParameters (.tableBits tableBits.toNat))
  if Limits.maxGiantSteps < bound.toNat >>> tableBits.toNat then
    throw (.invalidParameters (.giantSteps bound.toNat tableBits.toNat))

end Homomorphic.ElGamal
