import Homomorphic.Bytes

namespace Homomorphic

structure PointGroup where
  Point : Type
  order : Nat
  one_lt_order : 1 < order
  zero : Point
  base : Point
  add : Point → Point → Point
  neg : Point → Point
  same : Point → Point → Bool
  encode : Point → Bytes
  decode : Bytes → Option Point

namespace PointGroup

def width : Nat := 32

variable (E : PointGroup)

def sub (a b : E.Point) : E.Point := E.add a (E.neg b)

def mulBits (a : E.Point) : Nat → Nat → E.Point
  | 0, _ => E.zero
  | bits + 1, k =>
    if k = 0 then E.zero
    else
      let half := mulBits a bits (k / 2)
      let double := E.add half half
      if k % 2 = 1 then E.add double a else double

def mul (k : Nat) (a : E.Point) : E.Point := E.mulBits a (k.log2 + 1) k

def mulBase (k : Nat) : E.Point := E.mul k E.base

def scalar (x : Int) : Nat := (x % (E.order : Int)).toNat

def scalarOfBytes (bytes : Bytes) : Nat := bytes.toNat % E.order

def canonicalScalar? (bytes : Bytes) : Option Nat :=
  if bytes.toNat < E.order then some bytes.toNat else none

def scalarBytes (k : Nat) : Bytes := Bytes.ofNat width k

end PointGroup

end Homomorphic
