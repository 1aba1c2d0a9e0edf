import Homomorphic.Config
import Homomorphic.ElGamal.KeyGeneration
import Homomorphic.FixedPoint
import Homomorphic.Key
import Homomorphic.OkamotoUchiyama.KeyGeneration
import Homomorphic.Paillier.KeyGeneration

namespace Homomorphic

structure OwnerKit (E : PointGroup) where
  publicKey : PublicKey E
  secretKey : SecretKey E
  encoder : FixedPoint
  schema_eq : publicKey.schema = secretKey.schema

structure DestinationKit (E : PointGroup) where
  publicKey : PublicKey E
  encoder : FixedPoint

abbrev Setup := ExceptT Error (StateT Registry (StateM Entropy))

instance : MonadLift Draw Setup where
  monadLift draw := ExceptT.mk fun registry => do return (← draw.run, registry)

instance : MonadLift Loading Setup where
  monadLift loading := ExceptT.mk fun registry => return loading.run registry

variable {E : PointGroup}

def Setup.keys (test : Nat → Bool) (config : Config) : Setup (PublicKey E × SecretKey E) := do
  match config.schema with
  | .paillier =>
    let (sk, pk) ← Paillier.generate test config.keySize.toNat
    return (.paillier pk, .paillier sk)
  | .ou =>
    let (sk, pk) ← OkamotoUchiyama.generate test config.keySize.toNat
    return (.ou pk, .ou sk)
  | .elgamal =>
    Loading.enable .ristretto255
    let (sk, pk) ← ElGamal.generateWith .ristretto255 config.maxPlaintext config.tableBits
    return (.elgamal pk, .elgamal sk)

namespace OwnerKit

def ofKeys (publicKey : PublicKey E) (secretKey : SecretKey E) : Loading (OwnerKit E) := do
  if schema_eq : publicKey.schema = secretKey.schema then
    publicKey.enableCurve
    return { publicKey, secretKey, encoder := .standard, schema_eq }
  else throw (.schemaMismatch publicKey.schema secretKey.schema)

def create (test : Nat → Bool) (config : Config) : Setup (OwnerKit E) := do
  config.validate
  let (publicKey, secretKey) ← Setup.keys test config
  let kit : OwnerKit E ← ofKeys publicKey secretKey
  let encoder ← FixedPoint.of config.encoderScale.toInt
  return { kit with encoder }

def generate (test : Nat → Bool) (schema : Schema) (keySize : UInt64) : Setup (OwnerKit E) := do
  create test (← Config.ofSchema schema keySize)

def destination (kit : OwnerKit E) : DestinationKit E := ⟨kit.publicKey, kit.encoder⟩

end OwnerKit

namespace DestinationKit

def ofPublicKey (publicKey : PublicKey E) : Loading (DestinationKit E) := do
  publicKey.enableCurve
  return ⟨publicKey, .standard⟩

def ofBytes (bytes : Bytes) : Loading (DestinationKit E) := do
  ofPublicKey (← PublicKey.ofBytes bytes)

def withEncoder (kit : DestinationKit E) (encoder : FixedPoint) : DestinationKit E :=
  { kit with encoder }

end DestinationKit

end Homomorphic
