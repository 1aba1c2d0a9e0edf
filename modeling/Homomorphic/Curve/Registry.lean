import Homomorphic.Error
import Homomorphic.Sha256

namespace Homomorphic

inductive NamedCurve where
  | ristretto255
  deriving DecidableEq, Repr

namespace NamedCurve

def curve : NamedCurve → String
  | .ristretto255 => "ristretto255"

def library : NamedCurve → String
  | .ristretto255 => "curve25519-dalek"

def idOf (curve library : String) : UInt64 :=
  let digest := Sha256.digest (Utf8.encode curve ++ 0 :: Utf8.encode library)
  UInt64.ofNat (Bytes.toNat (digest.take 8))

def id (c : NamedCurve) : UInt64 := idOf c.curve c.library

def ofNames (curve library : String) : Except Error NamedCurve :=
  if curve.map Char.toLower = ristretto255.curve ∧
      library.map Char.toLower = ristretto255.library then
    .ok .ristretto255
  else .error (.unsupportedCurve curve library)

end NamedCurve

structure Registry where
  enabled : List NamedCurve
  deriving DecidableEq

namespace Registry

def empty : Registry := ⟨[]⟩

def enable (r : Registry) (c : NamedCurve) : Registry :=
  if c ∈ r.enabled then r else ⟨c :: r.enabled⟩

def lookup (r : Registry) (id : UInt64) : Except Error NamedCurve :=
  match r.enabled.find? (·.id = id) with
  | some c => .ok c
  | none => .error (.unknownCurve id)

def contains (r : Registry) (id : UInt64) : Bool := r.enabled.any (·.id = id)

end Registry

/-- A computation that may enable curves and may fail; what it has enabled stays when it fails. -/
abbrev Loading := ExceptT Error (StateM Registry)

def Loading.enable (c : NamedCurve) : Loading Unit := modify fun r => r.enable c

def Loading.lookup (id : UInt64) : Loading NamedCurve := do
  MonadExcept.ofExcept ((← get).lookup id)

end Homomorphic
