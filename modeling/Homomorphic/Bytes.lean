namespace Homomorphic

abbrev Bytes := List UInt8

namespace Bytes

def lowBytes : Nat → Nat → Bytes
  | 0, _ => []
  | count + 1, n => UInt8.ofNat n :: lowBytes count (n / 256)

def value (bytes : Bytes) : Nat :=
  bytes.foldr (fun b high => b.toNat + 256 * high) 0

def splitBytes : Nat → Nat → Nat → Bytes
  | 0, count, n => lowBytes count n
  | depth + 1, count, n =>
    if count ≤ 64 then lowBytes count n
    else
      let low := count / 2
      splitBytes depth low (n % (1 <<< (8 * low))) ++ splitBytes depth (count - low) (n >>> (8 * low))

def joinBytes : Nat → Bytes → Nat
  | 0, bytes => value bytes
  | depth + 1, bytes =>
    let count := bytes.length
    if count ≤ 64 then value bytes
    else
      let (low, high) := bytes.splitAt (count / 2)
      joinBytes depth low + (joinBytes depth high) <<< (8 * (count / 2))

def ofNat (count n : Nat) : Bytes := splitBytes count count n

def toNat (bytes : Bytes) : Nat := joinBytes bytes.length bytes

end Bytes

end Homomorphic
