import Homomorphic.Ciphertext

namespace Homomorphic

inductive PublicKey (E : PointGroup) where
  | paillier (pk : Paillier.PublicKey)
  | ou (pk : OkamotoUchiyama.PublicKey)
  | elgamal (pk : ElGamal.PublicKey E)

inductive SecretKey (E : PointGroup) where
  | paillier (sk : Paillier.SecretKey)
  | ou (sk : OkamotoUchiyama.SecretKey)
  | elgamal (sk : ElGamal.SecretKey E)

namespace PublicKey

variable {E : PointGroup}

def schema : PublicKey E → Schema
  | paillier _ => .paillier
  | ou _ => .ou
  | elgamal _ => .elgamal

instance : BEq (PublicKey E) where
  beq
    | paillier a, paillier b => a == b
    | ou a, ou b => a == b
    | elgamal a, elgamal b => a == b
    | _, _ => false

def params : PublicKey E → List (String × String)
  | paillier pk => pk.params
  | ou pk => pk.params
  | elgamal pk => pk.params

def toBytes (pk : PublicKey E) : Except Error Bytes := do
  let bytes ← match pk with
    | paillier pk => pk.toBytes
    | ou pk => pk.toBytes
    | elgamal pk => pk.toBytes
  return pk.schema.mark bytes

def ofBytes (bytes : Bytes) : Loading (PublicKey E) := do
  let (schema, payload) ← Schema.split bytes
  match schema with
  | .paillier => return paillier (← Paillier.PublicKey.ofBytes payload)
  | .ou => return ou (← OkamotoUchiyama.PublicKey.ofBytes payload)
  | .elgamal => return elgamal (← ElGamal.PublicKey.ofBytes payload)

def operations : PublicKey E → Operations (Ciphertext E)
  | paillier pk => pk.operations.lift .paillier Ciphertext.toPaillier
  | ou pk => pk.operations.lift .ou Ciphertext.toOu
  | elgamal pk => pk.operations.lift .elgamal Ciphertext.toElGamal

def enableCurve : PublicKey E → Loading Unit
  | elgamal pk => Loading.enable pk.curve
  | _ => return ()

end PublicKey

namespace SecretKey

variable {E : PointGroup}

def schema : SecretKey E → Schema
  | paillier _ => .paillier
  | ou _ => .ou
  | elgamal _ => .elgamal

def params : SecretKey E → List (String × String)
  | paillier sk => sk.params
  | ou sk => sk.params
  | elgamal sk => sk.params

def toBytes (sk : SecretKey E) : Except Error Bytes := do
  let bytes ← match sk with
    | paillier sk => sk.toBytes
    | ou sk => sk.toBytes
    | elgamal sk => sk.toBytes
  return sk.schema.mark bytes

def ofBytes (test : Nat → Bool) (bytes : Bytes) : Loading (SecretKey E) := do
  let (schema, payload) ← Schema.split bytes
  match schema with
  | .paillier => return paillier (← Paillier.SecretKey.ofBytes test payload)
  | .ou => return ou (← OkamotoUchiyama.SecretKey.ofBytes test payload)
  | .elgamal => return elgamal (← ElGamal.SecretKey.ofBytes payload)

def decrypt : SecretKey E → Ciphertext E → Except Error Int
  | paillier sk, c => do sk.decrypt (← c.toPaillier)
  | ou sk, c => do sk.decrypt (← c.toOu)
  | elgamal sk, c => do sk.decrypt (← c.toElGamal)

def decryptAll (sk : SecretKey E) (cs : List (Ciphertext E)) : Except Error (List Int) :=
  cs.mapM sk.decrypt

end SecretKey

end Homomorphic
