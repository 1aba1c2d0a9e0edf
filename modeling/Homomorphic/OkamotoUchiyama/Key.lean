import Homomorphic.FixedBase
import Homomorphic.Wire

namespace Homomorphic.OkamotoUchiyama

structure SecretKey where
  p : Modulus
  q : Modulus
  gpInv : Nat
  deriving DecidableEq

/-- The largest absolute value of a plaintext for a modulus, which stays below half of `p` if `p` has
a third of the bits of the modulus and its two top bits are set. -/
def boundFor (n : Nat) : Nat := 1 <<< (ceilDiv (bitLength n) 3 - 2)

structure PublicKey where
  n : Modulus
  g : Nat
  h : Nat
  gPowers : FixedBase
  hPowers : FixedBase
  odd : n.value % 2 = 1
  size : Limits.minKeySize ≤ bitLength n.value
  unitG : n.contains g = true ∧ Nat.gcd g n.value = 1
  unitH : n.contains h = true ∧ Nat.gcd h n.value = 1
  gPowers_eq : gPowers = FixedBase.build g n (bitLength (boundFor n.value))
  hPowers_eq : hPowers = FixedBase.build h n (bitLength n.value)

namespace SecretKey

def ofParts (test : Nat → Bool) (p q gpInv : Nat) : Except Error SecretKey :=
  if p = 0 ∨ q = 0 then .error (.keyState .zeroPrime)
  else if p = q then .error (.keyState .equalPrimes)
  else
    match Modulus.ofPrime? test p, Modulus.ofPrime? test q with
    | some primeP, some primeQ =>
      if bitLength (p * p * q) < Limits.minKeySize then
        .error (.keyState (.shortModulus (bitLength (p * p * q))))
      else if 0 < gpInv ∧ gpInv < p then .ok { p := primeP, q := primeQ, gpInv }
      else .error (.keyState .gpInvOutside)
    | _, _ => .error (.keyState .compositePrime)

variable (sk : SecretKey)

def n : Modulus := sk.p.square.times sk.q

def params : List (String × String) := [
  ("p", toString sk.p.value),
  ("q", toString sk.q.value),
  ("gp_inv", toString sk.gpInv)]

def toBytes : Except Error Bytes :=
  Wire.encode (Wire.putNaturals [sk.p.value, sk.q.value, sk.gpInv])

def reader : Wire.Reader (Nat × Nat × Nat) :=
  return (← Wire.natural, ← Wire.natural, ← Wire.natural)

def ofBytes (test : Nat → Bool) (bytes : Bytes) : Except Error SecretKey := do
  let (p, q, gpInv) ← Wire.decode reader bytes
  ofParts test p q gpInv

end SecretKey

def logarithm (p : Modulus) (x : Nat) : Nat :=
  shiftedQuotient (p.square.natPow x (p.value - 1)) p.value

namespace PublicKey

instance : BEq PublicKey := ⟨fun a b => a.n = b.n && a.g == b.g && a.h == b.h⟩

def ofParts (n g h : Nat) : Except Error PublicKey :=
  if odd : n % 2 = 1 then
    if size : Limits.minKeySize ≤ bitLength n then
      let modulus := Modulus.ofSize n size
      if unitG : modulus.contains g = true ∧ Nat.gcd g modulus.value = 1 then
        if unitH : modulus.contains h = true ∧ Nat.gcd h modulus.value = 1 then
          .ok {
            n := modulus, g, h, odd, size, unitG, unitH
            gPowers := FixedBase.build g modulus (bitLength (boundFor n))
            hPowers := FixedBase.build h modulus (bitLength n)
            gPowers_eq := rfl
            hPowers_eq := rfl }
        else .error (.keyState (.notUnit "H" "n"))
      else .error (.keyState (.notUnit "G" "n"))
    else .error (.keyState (.shortModulus (bitLength n)))
  else .error (.keyState .zeroOrEvenModulus)

variable (pk : PublicKey)

def keySize : Nat := bitLength pk.n.value

def bound : Nat := boundFor pk.n.value

def params : List (String × String) := [
  ("key_size", toString pk.keySize),
  ("n", toString pk.n.value),
  ("G", toString pk.g),
  ("H", toString pk.h)]

def toBytes : Except Error Bytes := Wire.encode (Wire.putNaturals [pk.n.value, pk.g, pk.h])

def ofBytes (bytes : Bytes) : Except Error PublicKey := do
  let (n, g, h) ← Wire.decode SecretKey.reader bytes
  ofParts n g h

end PublicKey

end Homomorphic.OkamotoUchiyama
