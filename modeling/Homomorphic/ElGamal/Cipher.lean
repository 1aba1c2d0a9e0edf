import Homomorphic.ElGamal.Ciphertext
import Homomorphic.Operations

/-!
ElGamal encryption with plaintexts in the exponent. Adding ciphertexts adds their plaintexts modulo
the order of the group; a plaintext is read back only within the bound of the key.
-/

namespace Homomorphic.ElGamal

variable {E : PointGroup}

def drawScalar (E : PointGroup) : Draw Nat := return E.scalarOfBytes (← Entropy.take 64)

namespace PublicKey

variable (pk : PublicKey E)

def scalar (m : Int) : Except Error Nat :=
  if m.natAbs ≤ pk.maxPlaintext.toNat then .ok (E.scalar m)
  else .error (.domain (.beyondBound (m < 0) pk.maxPlaintext.toNat))

def check (c : Ciphertext E) : Except Error Unit :=
  if c.curve = pk.curve then .ok ()
  else .error (.domain (.foreignCurve c.curve.curve pk.curve.curve))

def encryptWith (m : Int) (r : Nat) : Except Error (Ciphertext E) := do
  let k ← pk.scalar m
  return { curve := pk.curve, c1 := E.mulBase r, c2 := E.add (E.mulBase k) (E.mul r pk.y) }

def audit (m : Int) (r : Nat) : Except Error (Ciphertext E × Audit) := do
  let c ← pk.encryptWith m r
  return (c, [
    ("m", Hex.ofInt m),
    ("r", Hex.ofBytes (PointGroup.scalarBytes r)),
    ("c1", Hex.ofBytes (E.encode c.c1)),
    ("c2", Hex.ofBytes (E.encode c.c2))])

def add (a b : Ciphertext E) : Except Error (Ciphertext E) := do
  pk.check a
  pk.check b
  return { curve := a.curve, c1 := E.add a.c1 b.c1, c2 := E.add a.c2 b.c2 }

def sub (a b : Ciphertext E) : Except Error (Ciphertext E) := do
  pk.check a
  pk.check b
  return { curve := a.curve, c1 := E.sub a.c1 b.c1, c2 := E.sub a.c2 b.c2 }

def negate (a : Ciphertext E) : Except Error (Ciphertext E) := do
  pk.check a
  return { curve := a.curve, c1 := E.neg a.c1, c2 := E.neg a.c2 }

def addPlain (a : Ciphertext E) (m : Int) : Except Error (Ciphertext E) := do
  pk.check a
  let k ← pk.scalar m
  return { curve := a.curve, c1 := a.c1, c2 := E.add a.c2 (E.mulBase k) }

def mul (a : Ciphertext E) (m : Int) : Except Error (Ciphertext E) := do
  pk.check a
  let k ← pk.scalar m
  return { curve := a.curve, c1 := E.mul k a.c1, c2 := E.mul k a.c2 }

def blind (a : Ciphertext E) (r : Nat) : Except Error (Ciphertext E) := do
  pk.check a
  return { curve := a.curve, c1 := E.add a.c1 (E.mulBase r), c2 := E.add a.c2 (E.mul r pk.y) }

def operations : Operations (Ciphertext E) where
  draw := drawScalar E
  encryptWith := pk.encryptWith
  audit := pk.audit
  check := pk.check
  add := pk.add
  sub := pk.sub
  negate := pk.negate
  addPlain := pk.addPlain
  mul := pk.mul
  blind := pk.blind

end PublicKey

def SecretKey.decrypt (sk : SecretKey E) (c : Ciphertext E) : Except Error Int :=
  if c.curve = sk.curve then
    match sk.steps.get.solve (E.sub c.c2 (E.mul sk.x c.c1)) sk.maxPlaintext with
    | some m => .ok m.toInt
    | none => .error (.domain (.noLogarithm sk.maxPlaintext.toNat))
  else .error (.domain (.foreignCurve c.curve.curve sk.curve.curve))

end Homomorphic.ElGamal
