import Homomorphic.Limits
import Homomorphic.Modulus
import Homomorphic.Number.Bits

namespace Homomorphic

/-- Row `i` of the table holds the powers of `base` whose exponents are the multiples of the digit
weight `2 ^ (i * Limits.windowBits)` by the non-zero digits. -/
structure FixedBase where
  modulus : Modulus
  base : Nat
  maxBits : Nat
  rows : List (List Nat)
  deriving DecidableEq

namespace FixedBase

def radix : Nat := 1 <<< Limits.windowBits

def row (m : Modulus) (step : Nat) : Nat → Nat → List Nat
  | 0, _ => []
  | count + 1, power => power :: row m step count (m.mul power step)

def rowsFrom (m : Modulus) : Nat → Nat → List (List Nat)
  | 0, _ => []
  | count + 1, step =>
    let powers := row m step (radix - 1) step
    powers :: rowsFrom m count (m.mul (powers.getLastD 0) step)

def build (base : Nat) (m : Modulus) (maxBits : Nat) : FixedBase :=
  let base := m.reduce base
  { modulus := m, base, maxBits, rows := rowsFrom m (ceilDiv maxBits Limits.windowBits) base }

def bitsFrom (n start count : Nat) : Nat :=
  (List.range count).foldl (fun digit j => if n.testBit (start + j) then digit ||| 1 <<< j else digit) 0

def windowDigit (exponent window : Nat) : Nat :=
  bitsFrom exponent (window * Limits.windowBits) Limits.windowBits

def product (m : Modulus) (exponent : Nat) : List (List Nat) → Nat → Nat → Nat
  | [], _, acc => acc
  | powers :: rest, window, acc =>
    let digit := windowDigit exponent window
    let acc := if digit = 0 then acc else m.mul acc (powers.getD (digit - 1) 0)
    product m exponent rest (window + 1) acc

def pow (t : FixedBase) (exponent : Nat) : Nat :=
  if t.maxBits < bitLength exponent then t.modulus.natPow t.base exponent
  else t.modulus.reduce (product t.modulus exponent t.rows 0 1)

end FixedBase

end Homomorphic
