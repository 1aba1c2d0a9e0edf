import Homomorphic.ElGamal.Key

namespace Homomorphic.ElGamal

structure Ciphertext (E : PointGroup) where
  curve : NamedCurve
  c1 : E.Point
  c2 : E.Point

inductive Record where
  | named (curve library : String) (c1 c2 : Bytes)
  | compact (id : UInt64) (c1 c2 : Bytes)
  deriving DecidableEq, Repr

namespace Record

def put : Record → Bytes
  | named curve library c1 c2 =>
    Bytes.ofNat 4 0 ++ Wire.putText curve ++ Wire.putText library ++ c1 ++ c2
  | compact id c1 c2 => Bytes.ofNat 4 1 ++ Bytes.ofNat 8 id.toNat ++ c1 ++ c2

def readPoint : Wire.Reader Bytes := Wire.take PointGroup.width .endOfBytes

def reader : Wire.Reader Record := do
  let form ← Wire.word 4
  if form = 0 then return named (← Wire.text) (← Wire.text) (← readPoint) (← readPoint)
  else if form = 1 then return compact (UInt64.ofNat (← Wire.word 8)) (← readPoint) (← readPoint)
  else throw (.variant form)

end Record

namespace Ciphertext

variable {E : PointGroup}

instance : BEq (Ciphertext E) :=
  ⟨fun a b => a.curve = b.curve && E.same a.c1 b.c1 && E.same a.c2 b.c2⟩

variable (c : Ciphertext E)

def text : String :=
  "\x7bc1=" ++ Hex.ofBytes (E.encode c.c1) ++ ", c2=" ++ Hex.ofBytes (E.encode c.c2) ++ "\x7d"

def toBytes : Except Error Bytes :=
  Wire.encode (Record.compact c.curve.id (E.encode c.c1) (E.encode c.c2)).put

def toNamedBytes : Except Error Bytes :=
  Wire.encode
    (Record.named c.curve.curve c.curve.library (E.encode c.c1) (E.encode c.c2)).put

def ofRecord : Record → Loading (NamedCurve × Bytes × Bytes)
  | .named curve library c1 c2 => do
    let curve ← NamedCurve.ofNames curve library
    Loading.enable curve
    return (curve, c1, c2)
  | .compact id c1 c2 => return (← Loading.lookup id, c1, c2)

def ofBytes (bytes : Bytes) : Loading (Ciphertext E) := do
  let record ← Wire.decode Record.reader bytes
  let (curve, c1, c2) ← ofRecord record
  let c1 ← decodePoint E c1
  let c2 ← decodePoint E c2
  return { curve, c1, c2 }

end Ciphertext

end Homomorphic.ElGamal
