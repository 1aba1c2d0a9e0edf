import Homomorphic.Entropy

namespace Homomorphic.Entropy

def mix (z : UInt64) : UInt64 :=
  let z := (z ^^^ (z >>> 30)) * 0xBF58476D1CE4E5B9
  let z := (z ^^^ (z >>> 27)) * 0x94D049BB133111EB
  z ^^^ (z >>> 31)

def seededWord (seed : UInt64) (index : Nat) : UInt64 :=
  mix (seed + UInt64.ofNat (index + 1) * 0x9E3779B97F4A7C15)

def seededByte (seed : UInt64) (index : Nat) : UInt8 :=
  (seededWord seed (index / 8) >>> UInt64.ofNat (8 * (index % 8))).toUInt8

def seeded (first : Bytes) (seed : UInt64) : Entropy :=
  let first := first.toArray
  ofStream fun i => if h : i < first.size then first[i] else seededByte seed (i - first.size)

end Homomorphic.Entropy
