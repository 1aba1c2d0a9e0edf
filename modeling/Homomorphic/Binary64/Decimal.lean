import Homomorphic.Binary64

namespace Homomorphic.Binary64

structure Decimal where
  coefficient : Nat
  exponent : Int
  deriving DecidableEq, Repr

def tenTo (exponent : Int) : Nat := Nat.pow 10 exponent.toNat

def decimalExponent (num den : Nat) : Nat → Int → Int
  | 0, e => e
  | fuel + 1, e =>
    if num * tenTo (-e) < den * tenTo e then e else decimalExponent num den fuel (e + 1)

/-- A multiple of `10 ^ exponent` that reads back as the number, the nearest if there are two. A
multiple reads back if it lies between the midpoints to the neighbouring numbers, or on one of them
if the significand is even. -/
def nearestMultiple? (significand : Nat) (binary exponent : Int) : Option Nat :=
  let scale := tenTo (-exponent) <<< (binary - 2).toNat
  let unit := tenTo exponent <<< (2 - binary).toNat
  let value := 4 * significand * scale
  let below := if significand = leadingBit ∧ minExponent < binary then scale else 2 * scale
  let above := 2 * scale
  let slack := if significand % 2 = 0 then 1 else 0
  let low := value / unit
  let lowFits := value < low * unit + below + slack
  let highFits := (low + 1) * unit < value + above + slack
  if lowFits ∧ highFits then
    some (if 2 * (value - low * unit) < unit then low else low + 1)
  else if lowFits then some low
  else if highFits then some (low + 1)
  else none

def firstGrid (significand : Nat) (binary top : Int) : Nat → Nat → Decimal
  | 0, _ => ⟨0, 0⟩
  | fuel + 1, digits =>
    match nearestMultiple? significand binary (top - digits) with
    | some coefficient => ⟨coefficient, top - digits⟩
    | none => firstGrid significand binary top fuel (digits + 1)

def shortest (significand : Nat) (binary : Int) : Decimal :=
  let num := significand <<< binary.toNat
  let den := 1 <<< (-binary).toNat
  let estimate := ((bitLength num : Int) - bitLength den) * 1233 / 4096 - 1
  firstGrid significand binary (decimalExponent num den 8 estimate) 18 1

def Decimal.positional (d : Decimal) : String :=
  let digits := (toString d.coefficient).toList
  if 0 ≤ d.exponent then String.ofList (digits ++ List.replicate d.exponent.toNat '0')
  else
    let places := (-d.exponent).toNat
    let digits := List.replicate (places + 1 - digits.length) '0' ++ digits
    let whole := digits.length - places
    String.ofList (digits.take whole ++ '.' :: digits.drop whole)

def text : Binary64 → String
  | .nan => "NaN"
  | .infinite negative => if negative then "-inf" else "inf"
  | .finite negative significand exponent =>
    let magnitude :=
      if significand = 0 then "0" else (shortest significand exponent).positional
    if negative then "-" ++ magnitude else magnitude

end Homomorphic.Binary64
