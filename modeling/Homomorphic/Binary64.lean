import Homomorphic.Number.Bits

namespace Homomorphic

inductive Binary64 where
  | nan
  | infinite (negative : Bool)
  | finite (negative : Bool) (significand : Nat) (exponent : Int)
  deriving DecidableEq, Repr

namespace Binary64

def minExponent : Int := -1074

def maxExponent : Int := 971

def leadingBit : Nat := 1 <<< 52

def ofBits (bits : Nat) : Binary64 :=
  let negative := bits.testBit 63
  let exponent := (bits >>> 52) % 2048
  let fraction := bits % leadingBit
  if exponent = 2047 then if fraction = 0 then .infinite negative else .nan
  else if exponent = 0 then .finite negative fraction minExponent
  else .finite negative (leadingBit + fraction) (minExponent + (exponent - 1 : Nat))

def toBits : Binary64 → Nat
  | .nan => (2047 <<< 52) + (1 <<< 51)
  | .infinite negative => (negative.toNat <<< 63) + (2047 <<< 52)
  | .finite negative significand exponent =>
    let biased := if significand < leadingBit then 0 else (exponent - minExponent + 1).toNat
    (negative.toNat <<< 63) + (biased <<< 52) + significand % leadingBit

def roundQuotient (num den : Nat) : Nat :=
  let q := num / den
  let r := num % den
  if den < 2 * r ∨ (2 * r = den ∧ q % 2 = 1) then q + 1 else q

def scaledQuotient (num den : Nat) (exponent : Int) : Nat × Nat :=
  (num <<< (-exponent).toNat, den <<< exponent.toNat)

def ofRatio (negative : Bool) (num den : Nat) : Binary64 :=
  if num = 0 then .finite negative 0 minExponent
  else
    let guess := max minExponent ((bitLength num : Int) - bitLength den - 53)
    let (n, d) := scaledQuotient num den guess
    let exponent := if 2 * leadingBit * d ≤ n then guess + 1 else guess
    let (n, d) := scaledQuotient num den exponent
    let rounded := roundQuotient n d
    let (significand, exponent) :=
      if rounded = 2 * leadingBit then (leadingBit, exponent + 1) else (rounded, exponent)
    if maxExponent < exponent then .infinite negative else .finite negative significand exponent

def ofInt (x : Int) : Binary64 := ofRatio (x < 0) x.natAbs 1

def topWidth (n : Nat) : Nat := (bitLength n - 1) % 64 + 1

def hasLowBits (n : Nat) : Bool :=
  (List.range ((bitLength n - 1) / 64)).any fun i => (n >>> (64 * i)) % (1 <<< topWidth n) != 0

/-- The number with zeros below its 64 leading bits, the last of which is set if `hasLowBits`. That bit
keeps what is just above a tie from being taken for the tie, unless the excess lies higher in its word
than `hasLowBits` looks. -/
def condense (n : Nat) : Nat :=
  let excess := bitLength n - 64
  if excess = 0 then n else ((n >>> excess) ||| (hasLowBits n).toNat) <<< excess

def ofLongInt (x : Int) : Binary64 := ofRatio (x < 0) (condense x.natAbs) 1

def mul : Binary64 → Binary64 → Binary64
  | .finite s m e, .finite s' m' e' =>
    ofRatio (s ^^ s') ((m * m') <<< (e + e').toNat) (1 <<< (-(e + e')).toNat)
  | .infinite s, .infinite s' => .infinite (s ^^ s')
  | .infinite s, .finite s' m _ => if m = 0 then .nan else .infinite (s ^^ s')
  | .finite s m _, .infinite s' => if m = 0 then .nan else .infinite (s ^^ s')
  | .nan, _ => .nan
  | _, .nan => .nan

def div : Binary64 → Binary64 → Binary64
  | .finite s m e, .finite s' m' e' =>
    if m' = 0 then if m = 0 then .nan else .infinite (s ^^ s')
    else ofRatio (s ^^ s') (m <<< (e - e').toNat) (m' <<< (e' - e).toNat)
  | .infinite s, .finite s' _ _ => .infinite (s ^^ s')
  | .finite s _ _, .infinite s' => .finite (s ^^ s') 0 minExponent
  | .infinite _, .infinite _ => .nan
  | .nan, _ => .nan
  | _, .nan => .nan

def roundToInt? : Binary64 → Option Int
  | .finite negative significand exponent =>
    let magnitude := significand <<< exponent.toNat
    let half := 1 <<< (-exponent).toNat
    let rounded := (2 * magnitude + half) / (2 * half)
    some (if negative then -(rounded : Int) else rounded)
  | _ => none

end Binary64

end Homomorphic
