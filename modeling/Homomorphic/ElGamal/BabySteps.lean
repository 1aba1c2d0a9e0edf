import Homomorphic.Curve.PointGroup
import Std.Data.HashMap

/-!
Small logarithms of points. The multiples of the base point below a power of two, the baby steps, are
kept in a table; the search goes down from the point by giant steps of that power until it meets one.
-/

namespace Homomorphic.ElGamal

structure BabySteps (E : PointGroup) where
  tableBits : UInt32
  multiplier : Std.HashMap Bytes UInt64
  giant : E.Point

structure Search where
  answer : Option Int64
  giantSteps : Nat
  deriving DecidableEq

namespace BabySteps

variable {E : PointGroup}

def fill (E : PointGroup) : Nat → Nat → E.Point → Std.HashMap Bytes UInt64 →
    Std.HashMap Bytes UInt64 × E.Point
  | 0, _, point, table => (table, point)
  | count + 1, j, point, table =>
    fill E count (j + 1) (E.add point E.base) (table.insert (E.encode point) (UInt64.ofNat j))

def build (E : PointGroup) (tableBits : UInt32) : BabySteps E :=
  let (multiplier, giant) := fill E (1 <<< tableBits.toNat) 0 E.zero ∅
  { tableBits, multiplier, giant }

variable (t : BabySteps E)

def size : UInt64 := 1 <<< t.tableBits.toUInt64

/-- Looks for `point`, which is the sought one less `i` giant steps, and then `left - 1` further steps
down. The sought logarithm is known up to the shift by `bound`. -/
def searchFrom (bound span : UInt64) : Nat → UInt64 → E.Point → Nat → Search
  | 0, _, _, taken => ⟨none, taken⟩
  | left + 1, i, point, taken =>
    match t.multiplier[E.encode point]? with
    | some j =>
      let shifted := i * t.size + j
      if span < shifted then ⟨none, taken⟩
      else ⟨some (shifted.toInt64 - bound.toInt64), taken⟩
    | none => searchFrom bound span left (i + 1) (E.sub point t.giant) (taken + 1)

def search (point : E.Point) (bound : UInt64) : Search :=
  if UInt64.size ≤ 2 * bound.toNat then ⟨none, 0⟩
  else
    let span := 2 * bound
    let shifted := E.add point (E.mulBase bound.toNat)
    t.searchFrom bound span ((span / t.size).toNat + 1) 0 shifted 0

def solve (point : E.Point) (bound : UInt64) : Option Int64 := (t.search point bound).answer

end BabySteps

end Homomorphic.ElGamal
