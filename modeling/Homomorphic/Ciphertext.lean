import Homomorphic.ElGamal.Cipher
import Homomorphic.OkamotoUchiyama.Cipher
import Homomorphic.Paillier.Cipher

namespace Homomorphic

def Schema.mark (schema : Schema) (bytes : Bytes) : Bytes := schema.tag :: bytes

def Schema.split : Bytes → Except Error (Schema × Bytes)
  | [] => .error (.serialization .empty)
  | byte :: rest =>
    match Schema.ofTag? byte with
    | some schema => .ok (schema, rest)
    | none => .error (.serialization (.schemaTag byte))

inductive Ciphertext (E : PointGroup) where
  | paillier (c : Paillier.Ciphertext)
  | ou (c : OkamotoUchiyama.Ciphertext)
  | elgamal (c : ElGamal.Ciphertext E)

namespace Ciphertext

variable {E : PointGroup}

def schema : Ciphertext E → Schema
  | paillier _ => .paillier
  | ou _ => .ou
  | elgamal _ => .elgamal

instance : BEq (Ciphertext E) where
  beq
    | paillier a, paillier b => a == b
    | ou a, ou b => a == b
    | elgamal a, elgamal b => a == b
    | _, _ => false

def text : Ciphertext E → String
  | paillier c => c.text
  | ou c => c.text
  | elgamal c => c.text

def toBytes (c : Ciphertext E) : Except Error Bytes := do
  let bytes ← match c with
    | paillier c => c.toBytes
    | ou c => c.toBytes
    | elgamal c => c.toBytes
  return c.schema.mark bytes

def toNamedBytes : Ciphertext E → Except Error Bytes
  | elgamal c => return Schema.elgamal.mark (← c.toNamedBytes)
  | c => c.toBytes

def ofBytes (bytes : Bytes) : Loading (Ciphertext E) := do
  let (schema, payload) ← Schema.split bytes
  match schema with
  | .paillier => return paillier (← Paillier.Ciphertext.ofBytes payload)
  | .ou => return ou (← OkamotoUchiyama.Ciphertext.ofBytes payload)
  | .elgamal => return elgamal (← ElGamal.Ciphertext.ofBytes payload)

def toPaillier : Ciphertext E → Except Error Paillier.Ciphertext
  | paillier c => .ok c
  | c => .error (.schemaMismatch .paillier c.schema)

def toOu : Ciphertext E → Except Error OkamotoUchiyama.Ciphertext
  | ou c => .ok c
  | c => .error (.schemaMismatch .ou c.schema)

def toElGamal : Ciphertext E → Except Error (ElGamal.Ciphertext E)
  | elgamal c => .ok c
  | c => .error (.schemaMismatch .elgamal c.schema)

end Ciphertext

end Homomorphic
