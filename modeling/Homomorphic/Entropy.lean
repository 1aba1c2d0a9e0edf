import Homomorphic.Error

namespace Homomorphic

/-- A stream of random bytes, of which the first `used` have been taken. -/
structure Entropy where
  byte : Nat → UInt8
  used : Nat

abbrev Draw := ExceptT Error (StateM Entropy)

namespace Entropy

def ofStream (byte : Nat → UInt8) : Entropy := ⟨byte, 0⟩

def next (count : Nat) (e : Entropy) : Bytes :=
  (List.range count).map fun i => e.byte (e.used + i)

def take (count : Nat) : Draw Bytes := do
  let e ← get
  set { e with used := e.used + count }
  return e.next count

def ofBytes (bytes : Bytes) : Entropy := ofStream fun i => bytes.getD i 0

def cycle (bytes : Bytes) : Entropy :=
  let bytes := bytes.toArray
  ofStream fun i => bytes.getD (i % bytes.size) 0

end Entropy

def Draw.retry {α : Type} (attempt : Draw (Option α)) (failure : Error) : Nat → Draw α
  | 0 => throw failure
  | attempts + 1 => do
    match ← attempt with
    | some a => return a
    | none => retry attempt failure attempts

end Homomorphic
