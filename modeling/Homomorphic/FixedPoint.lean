import Homomorphic.Error

namespace Homomorphic

structure FixedPoint where
  scale : Int
  positive : 0 < scale
  deriving DecidableEq

namespace FixedPoint

def of (scale : Int) : Except Error FixedPoint :=
  if h : 0 < scale then .ok ⟨scale, h⟩ else .error (.invalidParameters (.scale scale))

def standard : FixedPoint := ⟨Limits.defaultScale, by decide⟩

variable (f : FixedPoint)

def encodeReal (x : Binary64) : Except Error Int :=
  match (x.mul (.ofInt f.scale)).roundToInt? with
  | some plaintext => .ok plaintext
  | none => .error (.invalidParameters (.notFinite x))

def encodeInt (x : Int) : Int := x * f.scale

def decodeReal (plaintext : Int) : Binary64 := (Binary64.ofLongInt plaintext).div (.ofInt f.scale)

def decodeInt (plaintext : Int) : Except Error Int :=
  let x := plaintext.tdiv f.scale
  if Int64.minValue.toInt ≤ x ∧ x ≤ Int64.maxValue.toInt then .ok x
  else .error (.domain (.wideInteger plaintext))

end FixedPoint

end Homomorphic
