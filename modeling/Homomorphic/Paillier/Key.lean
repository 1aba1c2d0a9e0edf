import Homomorphic.FixedBase
import Homomorphic.Wire

namespace Homomorphic.Paillier

structure SecretKey where
  p : Modulus
  q : Modulus
  lambda : Nat
  mu : Nat
  crossTerm : Nat
  deriving DecidableEq

structure PublicKey where
  n : Modulus
  hs : Nat
  powers : FixedBase
  odd : n.value % 2 = 1
  size : Limits.minKeySize ≤ bitLength n.value
  unit : n.square.contains hs = true ∧ Nat.gcd hs n.value = 1
  powers_eq : powers = FixedBase.build hs n.square (ceilDiv (bitLength n.value) 2)

namespace SecretKey

def ofParts (test : Nat → Bool) (p q lambda mu : Nat) : Except Error SecretKey :=
  if p = 0 ∨ q = 0 then .error (.keyState .zeroPrime)
  else if p = q then .error (.keyState .equalPrimes)
  else
    match Modulus.ofPrime? test p, Modulus.ofPrime? test q with
    | some primeP, some primeQ =>
      if bitLength (p * q) < Limits.minKeySize then
        .error (.keyState (.shortModulus (bitLength (p * q))))
      else if lambda ≠ Nat.lcm (p - 1) (q - 1) then .error (.keyState .wrongLambda)
      else if lambda * mu % (p * q) ≠ 1 then .error (.keyState .wrongMu)
      else
        match modInverse? (q * q) (p * p) with
        | none => .error (.keyState .squareNotInvertible)
        | some inverse =>
          .ok { p := primeP, q := primeQ, lambda, mu, crossTerm := inverse * (q * q) }
    | _, _ => .error (.keyState .compositePrime)

def ofPrimes (test : Nat → Bool) (p q : Nat) : Except Error SecretKey :=
  if p = 0 ∨ q = 0 then .error (.keyState .zeroPrime)
  else
    let lambda := Nat.lcm (p - 1) (q - 1)
    match modInverse? lambda (p * q) with
    | none => .error (.keyState .lambdaNotInvertible)
    | some mu => ofParts test p q lambda mu

variable (sk : SecretKey)

def n : Modulus := sk.p.times sk.q

def powSquare (base exponent : Nat) : Nat :=
  let p := sk.p.value
  let q := sk.q.value
  let square := sk.n.square
  let powerP := sk.p.square.natPow base (exponent % (p * (p - 1)))
  let powerQ := sk.q.square.natPow base (exponent % (q * (q - 1)))
  square.add powerQ (square.mul (square.sub powerP powerQ) sk.crossTerm)

def params : List (String × String) := [
  ("p", toString sk.p.value),
  ("q", toString sk.q.value),
  ("lambda", toString sk.lambda),
  ("mu", toString sk.mu)]

def toBytes : Except Error Bytes :=
  Wire.encode (Wire.putNaturals [sk.p.value, sk.q.value, sk.lambda, sk.mu])

def reader : Wire.Reader (Nat × Nat × Nat × Nat) :=
  return (← Wire.natural, ← Wire.natural, ← Wire.natural, ← Wire.natural)

def ofBytes (test : Nat → Bool) (bytes : Bytes) : Except Error SecretKey := do
  let (p, q, lambda, mu) ← Wire.decode reader bytes
  ofParts test p q lambda mu

end SecretKey

namespace PublicKey

instance : BEq PublicKey := ⟨fun a b => a.n = b.n && a.hs == b.hs⟩

def ofParts (n hs : Nat) : Except Error PublicKey :=
  if n = 0 then .error (.keyState .zeroModulus)
  else if odd : n % 2 = 1 then
    if size : Limits.minKeySize ≤ bitLength n then
      let modulus := Modulus.ofSize n size
      if unit : modulus.square.contains hs = true ∧ Nat.gcd hs modulus.value = 1 then
        .ok {
          n := modulus, hs, odd, size, unit
          powers := FixedBase.build hs modulus.square (ceilDiv (bitLength n) 2)
          powers_eq := rfl }
      else .error (.keyState (.notUnit "h_s" "n²"))
    else .error (.keyState (.shortModulus (bitLength n)))
  else .error (.keyState .evenModulus)

variable (pk : PublicKey)

def keySize : Nat := bitLength pk.n.value

def bound : Nat := pk.n.half

def params : List (String × String) := [
  ("key_size", toString pk.keySize),
  ("n", toString pk.n.value),
  ("h_s", toString pk.hs)]

def toBytes : Except Error Bytes := Wire.encode (Wire.putNaturals [pk.n.value, pk.hs])

def reader : Wire.Reader (Nat × Nat) := return (← Wire.natural, ← Wire.natural)

def ofBytes (bytes : Bytes) : Except Error PublicKey := do
  let (n, hs) ← Wire.decode reader bytes
  ofParts n hs

end PublicKey

end Homomorphic.Paillier
