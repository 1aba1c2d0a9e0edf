import Homomorphic.ElGamal.Bounds
import Homomorphic.Json.Reader

/-!
The configuration of a kit and its JSON form: an object, of which any field may be missing, stand in
any place, or be unknown; or a list of the first fields in their order.
-/

namespace Homomorphic

structure Config where
  schema : Schema
  keySize : UInt64
  maxPlaintext : UInt64
  tableBits : UInt32
  encoderScale : Int64
  deriving DecidableEq

namespace Config

def standard : Config where
  schema := .paillier
  keySize := UInt64.ofNat Limits.defaultKeySize
  maxPlaintext := UInt64.ofNat Limits.defaultMaxPlaintext
  tableBits := UInt32.ofNat Limits.defaultTableBits
  encoderScale := Int64.ofNat Limits.defaultScale

def validate (c : Config) : Except Error Unit := do
  if c.keySize.toNat < Limits.minKeySize then
    throw (.invalidParameters (.keySize c.keySize.toNat))
  if c.encoderScale.toInt ≤ 0 then
    throw (.invalidParameters (.scale c.encoderScale.toInt))
  ElGamal.checkTable c.maxPlaintext c.tableBits

def validated (c : Config) : Except Error Config := do
  c.validate
  return c

def ofSchema (schema : Schema) (keySize : UInt64) : Except Error Config :=
  validated { standard with schema, keySize }

def parseSchema (text : String) : Except Error Schema :=
  match Schema.ofName? (text.map Char.toLower) with
  | some schema => .ok schema
  | none => .error (.invalidParameters (.schemaName text))

inductive Field where
  | schema
  | keySize
  | maxPlaintext
  | tableBits
  | encoderScale
  deriving DecidableEq, Repr

def Field.all : List Field := [.schema, .keySize, .maxPlaintext, .tableBits, .encoderScale]

def Field.name : Field → String
  | .schema => "schema"
  | .keySize => "key_size"
  | .maxPlaintext => "elgamal_max_plaintext"
  | .tableBits => "elgamal_table_bits"
  | .encoderScale => "encoder_scale"

def Field.ofName? (name : String) : Option Field := Field.all.find? (·.name = name)

def Field.get (c : Config) : Field → Json
  | .schema => .ofText c.schema.name
  | .keySize => .ofInt c.keySize.toNat
  | .maxPlaintext => .ofInt c.maxPlaintext.toNat
  | .tableBits => .ofInt c.tableBits.toNat
  | .encoderScale => .ofInt c.encoderScale.toInt

def readInt (low high : Int) : Json → Option Int
  | .number value => value.toInt?.filter fun x => low ≤ x ∧ x < high
  | _ => none

def readSchema : Json → Option Schema
  | .string (some name) => Schema.ofName? name
  | .object [(some name, .null)] => Schema.ofName? name
  | _ => none

def Field.set (c : Config) (value : Json) : Field → Option Config
  | .schema => (readSchema value).map fun schema => { c with schema }
  | .keySize =>
    (readInt 0 UInt64.size value).map fun x => { c with keySize := UInt64.ofNat x.toNat }
  | .maxPlaintext =>
    (readInt 0 UInt64.size value).map fun x => { c with maxPlaintext := UInt64.ofNat x.toNat }
  | .tableBits =>
    (readInt 0 UInt32.size value).map fun x => { c with tableBits := UInt32.ofNat x.toNat }
  | .encoderScale =>
    (readInt Int64.minValue.toInt (Int64.maxValue.toInt + 1) value).map fun x =>
      { c with encoderScale := Int64.ofInt x }

def setNamed : List (Json.Text × Json) → List Field → Config → Option Config
  | [], _, c => some c
  | (none, _) :: _, _, _ => none
  | (some name, value) :: rest, seen, c =>
    match Field.ofName? name with
    | none => setNamed rest seen c
    | some field =>
      if field ∈ seen then none
      else (field.set c value).bind (setNamed rest (field :: seen))

def setInOrder : List Json → List Field → Config → Option Config
  | [], _, c => some c
  | _ :: _, [], _ => none
  | value :: values, field :: fields, c => (field.set c value).bind (setInOrder values fields)

def ofJson? : Json → Option Config
  | .object fields => setNamed fields [] standard
  | .array values => setInOrder values Field.all standard
  | _ => none

def parse (text : String) : Except Error Config :=
  match (Json.parse? text).bind ofJson? with
  | some c => c.validated
  | none => .error .json

def toJson (c : Config) : Json := .ofFields (Field.all.map fun field => (field.name, field.get c))

def text (c : Config) : String := c.toJson.pretty

end Config

end Homomorphic
