import Homomorphic.Entropy.Sampling
import Homomorphic.Operations
import Homomorphic.Paillier.Key

/-!
Paillier encryption. A ciphertext is a residue modulo `n ^ 2`; multiplying ciphertexts adds their
plaintexts modulo `n`.
-/

namespace Homomorphic.Paillier

structure Ciphertext where
  value : Nat
  deriving DecidableEq, Repr

namespace Ciphertext

def text (c : Ciphertext) : String := Hex.ofNat c.value

def toBytes (c : Ciphertext) : Except Error Bytes := Wire.encode (Wire.putNatural c.value)

def ofBytes (bytes : Bytes) : Except Error Ciphertext :=
  return ⟨← Wire.decode Wire.natural bytes⟩

end Ciphertext

namespace PublicKey

variable (pk : PublicKey)

def checkPlaintext (m : Int) : Except Error Unit :=
  if m.natAbs ≤ pk.bound then .ok () else .error (.domain (.beyondHalfModulus pk.keySize))

def check (c : Ciphertext) : Except Error Unit :=
  if pk.n.square.contains c.value then .ok () else .error (.domain .outsideSquare)

def encode (m : Int) : Nat := pk.n.normalize m * pk.n.value + 1

def combine (m : Int) (blinding : Nat) : Ciphertext := ⟨pk.n.square.mul (pk.encode m) blinding⟩

def encryptWith (m : Int) (r : Nat) : Except Error Ciphertext := do
  pk.checkPlaintext m
  return pk.combine m (pk.powers.pow r)

def audit (m : Int) (r : Nat) : Except Error (Ciphertext × Audit) := do
  pk.checkPlaintext m
  let blinding := pk.powers.pow r
  let c := pk.combine m blinding
  return (c, [
    ("m", Hex.ofInt m),
    ("r", Hex.ofNat r),
    ("hs_r", Hex.ofNat blinding),
    ("c", Hex.ofNat c.value)])

def add (a b : Ciphertext) : Except Error Ciphertext := do
  pk.check a
  pk.check b
  return ⟨pk.n.square.mul a.value b.value⟩

def sub (a b : Ciphertext) : Except Error Ciphertext := do
  pk.check b
  let inverse ← pk.n.square.inv b.value
  pk.check a
  return ⟨pk.n.square.mul a.value inverse⟩

def negate (a : Ciphertext) : Except Error Ciphertext := do
  pk.check a
  return ⟨← pk.n.square.inv a.value⟩

def addPlain (a : Ciphertext) (m : Int) : Except Error Ciphertext := do
  pk.check a
  pk.checkPlaintext m
  return ⟨pk.n.square.mul a.value (pk.encode m)⟩

def mul (a : Ciphertext) (k : Int) : Except Error Ciphertext := do
  pk.check a
  pk.checkPlaintext k
  return ⟨← pk.n.square.pow a.value k⟩

def blind (a : Ciphertext) (r : Nat) : Except Error Ciphertext := do
  pk.check a
  return ⟨pk.n.square.mul a.value (pk.powers.pow r)⟩

def operations : Operations Ciphertext where
  draw := Entropy.bits pk.powers.maxBits
  encryptWith := pk.encryptWith
  audit := pk.audit
  check := pk.check
  add := pk.add
  sub := pk.sub
  negate := pk.negate
  addPlain := pk.addPlain
  mul := pk.mul
  blind := pk.blind

end PublicKey

def SecretKey.decrypt (sk : SecretKey) (c : Ciphertext) : Except Error Int :=
  if sk.n.square.contains c.value then
    let u := sk.powSquare c.value sk.lambda
    .ok (sk.n.center (sk.n.mul (shiftedQuotient u sk.n.value) sk.mu))
  else .error (.domain .outsideSquare)

end Homomorphic.Paillier
