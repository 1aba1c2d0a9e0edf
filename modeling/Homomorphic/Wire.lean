import Homomorphic.Error
import Homomorphic.Number.Bits

/-!
The binary format of stored and sent values. Integers have a fixed width and are little-endian; a
natural number is the count of its 32-bit digits and then the digits; a text is the count of its
bytes and then the bytes. A reader takes what it reads off the front of the bytes.
-/

namespace Homomorphic.Wire

abbrev Reader := StateT Bytes (Except WireFault)

def take (count : Nat) (fault : WireFault) : Reader Bytes := fun bytes =>
  if count ≤ bytes.length then .ok (bytes.take count, bytes.drop count) else .error fault

def word (width : Nat) : Reader Nat := do
  return (← take width .endOfBytes).toNat

def natural : Reader Nat := do
  let count ← word 8
  return (← take (4 * count) .endOfBytes).toNat

def signOf (byte : Nat) : Except WireFault Int :=
  if byte = 0 then .ok 0
  else if byte = 1 then .ok 1
  else if byte = 255 then .ok (-1)
  else .error (.sign (if byte < 128 then byte else (byte : Int) - 256))

def integer : Reader Int := do
  let sign ← signOf (← word 1)
  return sign * (← natural)

def text : Reader String := do
  let count ← word 8
  match Utf8.decode (← take count .endOfText) with
  | .ok text => return text
  | .error fault => throw (.notText fault)

def naturals : Nat → Reader (List Nat)
  | 0 => return []
  | count + 1 => return (← natural) :: (← naturals count)

def decode {α : Type} (reader : Reader α) (bytes : Bytes) : Except Error α :=
  match reader bytes with
  | .ok (a, []) => .ok a
  | .ok (_, _ :: _) => .error (.wire .trailingBytes)
  | .error fault => .error (.wire fault)

def digitCount (n : Nat) : Nat := ceilDiv (bitLength n) 32

def putNatural (n : Nat) : Bytes :=
  Bytes.ofNat 8 (digitCount n) ++ Bytes.ofNat (4 * digitCount n) n

def putInteger (x : Int) : Bytes :=
  (if x < 0 then 255 else if x = 0 then 0 else 1) :: putNatural x.natAbs

def putText (text : String) : Bytes :=
  let bytes := Utf8.encode text
  Bytes.ofNat 8 bytes.length ++ bytes

def putNaturals (ns : List Nat) : Bytes := ns.flatMap putNatural

def encode (bytes : Bytes) : Except Error Bytes :=
  if bytes.length ≤ Limits.maxWireBytes then .ok bytes else .error (.wire .sizeLimit)

end Homomorphic.Wire
