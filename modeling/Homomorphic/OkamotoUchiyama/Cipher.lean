import Homomorphic.Entropy.Sampling
import Homomorphic.OkamotoUchiyama.Key
import Homomorphic.Operations

/-!
Okamoto–Uchiyama encryption. A ciphertext is a residue modulo `n = p ^ 2 * q`; multiplying ciphertexts
adds their plaintexts modulo the secret `p`.
-/

namespace Homomorphic.OkamotoUchiyama

structure Ciphertext where
  value : Nat
  deriving DecidableEq, Repr

namespace Ciphertext

def text (c : Ciphertext) : String := Hex.ofNat c.value

def toBytes (c : Ciphertext) : Except Error Bytes := Wire.encode (Wire.putNatural c.value)

def ofBytes (bytes : Bytes) : Except Error Ciphertext :=
  return ⟨← Wire.decode Wire.natural bytes⟩

end Ciphertext

namespace PublicKey

variable (pk : PublicKey)

def checkPlaintext (m : Int) : Except Error Unit :=
  if m.natAbs ≤ pk.bound then .ok () else .error (.domain (.beyondBits (bitLength pk.bound)))

def check (c : Ciphertext) : Except Error Unit :=
  if pk.n.contains c.value then .ok () else .error (.domain .outsideModulus)

def encode (m : Int) : Except Error Nat :=
  let positive := pk.gPowers.pow m.natAbs
  if m < 0 then pk.n.inv positive else .ok positive

def encryptWith (m : Int) (r : Nat) : Except Error Ciphertext := do
  pk.checkPlaintext m
  return ⟨pk.n.mul (← pk.encode m) (pk.hPowers.pow r)⟩

def audit (m : Int) (r : Nat) : Except Error (Ciphertext × Audit) := do
  pk.checkPlaintext m
  let blinding := pk.hPowers.pow r
  let c : Ciphertext := ⟨pk.n.mul (← pk.encode m) blinding⟩
  return (c, [
    ("m", Hex.ofInt m),
    ("r", Hex.ofNat r),
    ("h_r", Hex.ofNat blinding),
    ("c", Hex.ofNat c.value)])

def add (a b : Ciphertext) : Except Error Ciphertext := do
  pk.check a
  pk.check b
  return ⟨pk.n.mul a.value b.value⟩

def sub (a b : Ciphertext) : Except Error Ciphertext := do
  pk.check b
  let inverse ← pk.n.inv b.value
  pk.check a
  return ⟨pk.n.mul a.value inverse⟩

def negate (a : Ciphertext) : Except Error Ciphertext := do
  pk.check a
  return ⟨← pk.n.inv a.value⟩

def addPlain (a : Ciphertext) (m : Int) : Except Error Ciphertext := do
  pk.check a
  pk.checkPlaintext m
  return ⟨pk.n.mul a.value (← pk.encode m)⟩

def mul (a : Ciphertext) (k : Int) : Except Error Ciphertext := do
  pk.check a
  pk.checkPlaintext k
  return ⟨← pk.n.pow a.value k⟩

def blind (a : Ciphertext) (r : Nat) : Except Error Ciphertext := do
  pk.check a
  return ⟨pk.n.mul a.value (pk.hPowers.pow r)⟩

def operations : Operations Ciphertext where
  draw := Entropy.bits pk.hPowers.maxBits
  encryptWith := pk.encryptWith
  audit := pk.audit
  check := pk.check
  add := pk.add
  sub := pk.sub
  negate := pk.negate
  addPlain := pk.addPlain
  mul := pk.mul
  blind := pk.blind

end PublicKey

def SecretKey.decrypt (sk : SecretKey) (c : Ciphertext) : Except Error Int :=
  if sk.n.contains c.value then
    .ok (sk.p.center (sk.p.mul (logarithm sk.p c.value) sk.gpInv))
  else .error (.domain .outsideModulus)

end Homomorphic.OkamotoUchiyama
