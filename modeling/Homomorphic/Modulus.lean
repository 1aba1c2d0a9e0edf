import Homomorphic.Error
import Homomorphic.Number.Bits
import Homomorphic.Number.Inverse
import Homomorphic.Number.Power
import Homomorphic.Number.Primality

namespace Homomorphic

structure Modulus where
  value : Nat
  one_lt : 1 < value
  deriving DecidableEq

namespace Modulus

def of (value : Nat) : Except Error Modulus :=
  if h : 1 < value then .ok ⟨value, h⟩ else .error (.invalidModulus value)

def ofPrime? (test : Nat → Bool) (value : Nat) : Option Modulus :=
  if h : isProbablePrime test value = true then some ⟨value, two_le_of_isProbablePrime h⟩ else none

def ofSize (value : Nat) (size : Limits.minKeySize ≤ bitLength value) : Modulus :=
  ⟨value, one_lt_of_one_lt_bitLength (Nat.lt_of_lt_of_le (by decide) size)⟩

def times (m k : Modulus) : Modulus where
  value := m.value * k.value
  one_lt :=
    Nat.lt_of_lt_of_le m.one_lt (Nat.le_mul_of_pos_right _ (Nat.lt_trans Nat.zero_lt_one k.one_lt))

def square (m : Modulus) : Modulus := m.times m

variable (m : Modulus)

def half : Nat := m.value / 2

def normalize (x : Int) : Nat := (x % (m.value : Int)).toNat

def reduce (a : Nat) : Nat := a % m.value

def add (a b : Nat) : Nat := (a + b) % m.value

def sub (a b : Nat) : Nat := (m.reduce a + m.value - m.reduce b) % m.value

def mul (a b : Nat) : Nat := a * b % m.value

def neg (a : Nat) : Nat := (m.value - m.reduce a) % m.value

def inv (a : Nat) : Except Error Nat :=
  match modInverse? (m.reduce a) m.value with
  | some x => .ok x
  | none => .error (.noInverse (m.reduce a) m.value)

def natPow (base exponent : Nat) : Nat := powMod base exponent m.value

def pow (base : Nat) (exponent : Int) : Except Error Nat :=
  if exponent < 0 then do
    let inverse ← m.inv base
    return m.natPow inverse exponent.natAbs
  else .ok (m.natPow base exponent.natAbs)

def center (a : Nat) : Int :=
  let a := m.reduce a
  if m.half < a then (a : Int) - m.value else a

def contains (a : Nat) : Bool := 0 < a && a < m.value

end Modulus

end Homomorphic
