import Homomorphic.Entropy
import Homomorphic.Limits
import Homomorphic.Number.Bits
import Homomorphic.Number.Primality

namespace Homomorphic.Entropy

def maskLast (excess : Nat) : Bytes → Bytes
  | [] => []
  | [last] => [last &&& 0xFF >>> UInt8.ofNat excess]
  | b :: bytes => b :: maskLast excess bytes

def ofWidth (width : Nat) (bytes : Bytes) : Nat :=
  (maskLast (bytes.length * 8 - width) bytes).toNat

def bits (width : Nat) : Draw Nat := do
  let bytes ← take (ceilDiv width 8)
  return ofWidth width bytes

def belowCandidate (bound : Nat) : Draw (Option Nat) := do
  let candidate ← bits (bitLength bound)
  return if candidate < bound then some candidate else none

def below (bound : Nat) : Draw Nat :=
  if bound = 0 then throw (.invalidParameters .samplingBound)
  else
    Draw.retry (belowCandidate bound) (.randomnessExhausted (.below (bitLength bound)))
      Limits.maxRandomAttempts

def unitCandidate (n : Nat) : Draw (Option Nat) := do
  let candidate ← below n
  return if candidate ≠ 0 ∧ Nat.gcd candidate n = 1 then some candidate else none

def unit (n : Nat) : Draw Nat :=
  Draw.retry (unitCandidate n) (.randomnessExhausted .unit) Limits.maxRandomAttempts

def forceBits (width n : Nat) : Nat := n ||| (1 <<< (width - 1)) ||| (1 <<< (width - 2)) ||| 1

def primeCandidate (test : Nat → Bool) (width : Nat) : Draw (Option Nat) := do
  let candidate := forceBits width (← bits width)
  return if isProbablePrime test candidate then some candidate else none

def prime (test : Nat → Bool) (width : Nat) : Draw Nat :=
  if width < Limits.minPrimeBits then throw (.invalidParameters (.primeWidth width))
  else
    Draw.retry (primeCandidate test width) (.keyGeneration (.prime width))
      Limits.maxPrimeCandidates

end Homomorphic.Entropy
