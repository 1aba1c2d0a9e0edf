import Homomorphic.Number.Bits
import Homomorphic.Number.Power

namespace Homomorphic.StrongTest

def oddPart : Nat → Nat → Nat × Nat
  | 0, n => (n, 0)
  | fuel + 1, n =>
    if n % 2 = 0 ∧ n ≠ 0 then
      let (d, s) := oddPart fuel (n / 2)
      (d, s + 1)
    else (n, 0)

def reaches (target n : Nat) : Nat → Nat → Bool
  | 0, _ => false
  | rounds + 1, x => x == target || reaches target n rounds (x * x % n)

def toBase (n b : Nat) : Bool :=
  let (d, s) := oddPart (bitLength n) (n - 1)
  let x := powMod b d n
  b % n == 0 || x == 1 || reaches (n - 1) n s x

def jacobi : Nat → Nat → Nat → Int
  | 0, _, _ => 0
  | fuel + 1, a, n =>
    if a = 0 then (if n = 1 then 1 else 0)
    else
      let (d, s) := oddPart (bitLength a) a
      let two : Int := if s % 2 = 1 ∧ (n % 8 = 3 ∨ n % 8 = 5) then -1 else 1
      let flip : Int := if d % 4 = 3 ∧ n % 4 = 3 then -1 else 1
      two * flip * jacobi fuel (n % d) d

def discriminant? (n : Nat) : Nat → Int → Option Int
  | 0, _ => none
  | fuel + 1, d =>
    if jacobi (2 * bitLength n + 8) (d % (n : Int)).toNat n = -1 then some d
    else discriminant? n fuel (if d < 0 then 2 - d else -2 - d)

def halve (x n : Nat) : Nat := (if x % 2 = 0 then x / 2 else (x + n) / 2) % n

def lucasTerms (n d q : Nat) : List Bool → Nat × Nat × Nat → Nat × Nat × Nat
  | [], terms => terms
  | bit :: bits, (u, v, qk) =>
    let u2 := u * v % n
    let v2 := (v * v + 2 * (n - qk)) % n
    let q2 := qk * qk % n
    if bit then
      lucasTerms n d q bits (halve (u2 + v2) n, halve (d * u2 + v2) n, q2 * q % n)
    else lucasTerms n d q bits (u2, v2, q2)

def vanishes (n : Nat) : Nat → Nat → Nat → Bool
  | 0, _, _ => false
  | rounds + 1, v, qk => v == 0 || vanishes n rounds ((v * v + 2 * (n - qk)) % n) (qk * qk % n)

def binaryDigits (k : Nat) : List Bool :=
  (List.range (bitLength k)).reverse.map k.testBit

def squareRoot (n : Nat) : Nat → Nat → Nat
  | 0, x => x
  | rounds + 1, x =>
    let y := (x + n / x) / 2
    if y < x then squareRoot n rounds y else x

def isSquare (n : Nat) : Bool :=
  let r := squareRoot n (2 * bitLength n + 8) (1 <<< (bitLength n / 2 + 1))
  r * r == n

def lucas (n : Nat) : Bool :=
  if isSquare n then false
  else
    match discriminant? n (4 * bitLength n + 64) 5 with
    | none => false
    | some disc =>
      let d := (disc % (n : Int)).toNat
      let q := ((1 - disc) / 4 % (n : Int)).toNat
      let (k, s) := oddPart (bitLength (n + 1)) (n + 1)
      let (u, v, qk) := lucasTerms n d q ((binaryDigits k).drop 1) (1 % n, 1 % n, q % n)
      u == 0 || vanishes n s v qk

def bases : List Nat := [2, 3, 5, 7, 11, 13, 17, 19, 23, 29, 31, 37]

/-- Below this number no composite passes the strong test to every one of `bases`. -/
def decidedBelow : Nat := 318665857834031151167461

def isLikelyPrime (n : Nat) : Bool :=
  if n < decidedBelow then bases.all (toBase n)
  else toBase n 2 && lucas n && toBase n 3 && toBase n 5

end Homomorphic.StrongTest
