import Homomorphic.Curve.Registry
import Homomorphic.ElGamal.BabySteps
import Homomorphic.ElGamal.Bounds
import Homomorphic.Wire

namespace Homomorphic.ElGamal

structure SecretKey (E : PointGroup) where
  curve : NamedCurve
  x : Nat
  maxPlaintext : UInt64
  tableBits : UInt32
  steps : Thunk (BabySteps E)
  x_pos : 0 < x
  x_lt : x < E.order
  valid : checkTable maxPlaintext tableBits = .ok ()
  steps_eq : steps.get = BabySteps.build E tableBits

structure PublicKey (E : PointGroup) where
  curve : NamedCurve
  y : E.Point
  maxPlaintext : UInt64
  y_ne : E.same y E.zero = false
  valid : checkMaxPlaintext maxPlaintext = .ok ()

def decodePoint (E : PointGroup) (bytes : Bytes) : Except Error E.Point :=
  if bytes.length = PointGroup.width then
    match E.decode bytes with
    | some point => .ok point
    | none => .error (.serialization (.point bytes))
  else .error (.serialization (.pointWidth PointGroup.width bytes.length))

def putCurve (c : NamedCurve) : Bytes := Wire.putText c.curve ++ Wire.putText c.library

namespace PublicKey

variable {E : PointGroup}

instance : BEq (PublicKey E) :=
  ⟨fun a b => a.curve = b.curve && E.same a.y b.y && a.maxPlaintext == b.maxPlaintext⟩

def ofParts (curve : NamedCurve) (y : E.Point) (maxPlaintext : UInt64) :
    Except Error (PublicKey E) :=
  if y_ne : E.same y E.zero = false then
    match valid : checkMaxPlaintext maxPlaintext with
    | .ok () => .ok { curve, y, maxPlaintext, y_ne, valid }
    | .error error => .error error
  else .error (.keyState .identityPoint)

variable (pk : PublicKey E)

def params : List (String × String) := [
  ("curve", pk.curve.curve),
  ("library", pk.curve.library),
  ("y", Hex.ofBytes (E.encode pk.y)),
  ("max_plaintext", toString pk.maxPlaintext)]

def toBytes : Except Error Bytes :=
  Wire.encode (putCurve pk.curve ++ E.encode pk.y ++ Bytes.ofNat 8 pk.maxPlaintext.toNat)

structure Record where
  curve : String
  library : String
  y : Bytes
  maxPlaintext : UInt64

def reader : Wire.Reader Record := do
  let curve ← Wire.text
  let library ← Wire.text
  let y ← Wire.take PointGroup.width .endOfBytes
  let maxPlaintext ← Wire.word 8
  return { curve, library, y, maxPlaintext := UInt64.ofNat maxPlaintext }

def ofBytes (bytes : Bytes) : Loading (PublicKey E) := do
  let record ← Wire.decode reader bytes
  let curve ← NamedCurve.ofNames record.curve record.library
  Loading.enable curve
  let y ← decodePoint E record.y
  ofParts curve y record.maxPlaintext

end PublicKey

namespace SecretKey

variable {E : PointGroup}

def ofParts (curve : NamedCurve) (x : Nat) (maxPlaintext : UInt64) (tableBits : UInt32) :
    Except Error (SecretKey E) :=
  if x_pos : 0 < x % E.order then
    match valid : checkTable maxPlaintext tableBits with
    | .ok () =>
      .ok {
        curve, maxPlaintext, tableBits, x_pos, valid
        x := x % E.order
        x_lt := Nat.mod_lt _ (Nat.lt_trans Nat.zero_lt_one E.one_lt_order)
        steps := Thunk.mk fun _ => BabySteps.build E tableBits
        steps_eq := rfl }
    | .error error => .error error
  else .error (.keyState .zeroScalar)

variable (sk : SecretKey E)

def publicKey : Except Error (PublicKey E) :=
  PublicKey.ofParts sk.curve (E.mulBase sk.x) sk.maxPlaintext

def params : List (String × String) := [
  ("curve", sk.curve.curve),
  ("library", sk.curve.library),
  ("x", Hex.ofBytes (PointGroup.scalarBytes sk.x)),
  ("max_plaintext", toString sk.maxPlaintext),
  ("table_bits", toString sk.tableBits)]

def toBytes : Except Error Bytes :=
  Wire.encode (putCurve sk.curve ++ PointGroup.scalarBytes sk.x ++ Bytes.ofNat 8 sk.maxPlaintext.toNat
    ++ Bytes.ofNat 4 sk.tableBits.toNat)

structure Record where
  curve : String
  library : String
  x : Bytes
  maxPlaintext : UInt64
  tableBits : UInt32

def reader : Wire.Reader Record := do
  let curve ← Wire.text
  let library ← Wire.text
  let x ← Wire.take PointGroup.width .endOfBytes
  let maxPlaintext ← Wire.word 8
  let tableBits ← Wire.word 4
  return {
    curve, library, x
    maxPlaintext := UInt64.ofNat maxPlaintext
    tableBits := UInt32.ofNat tableBits }

def ofBytes (bytes : Bytes) : Loading (SecretKey E) := do
  let record ← Wire.decode reader bytes
  let curve ← NamedCurve.ofNames record.curve record.library
  Loading.enable curve
  match E.canonicalScalar? record.x with
  | some x => ofParts curve x record.maxPlaintext record.tableBits
  | none => throw (.keyState .scalarNotCanonical)

end SecretKey

end Homomorphic.ElGamal
