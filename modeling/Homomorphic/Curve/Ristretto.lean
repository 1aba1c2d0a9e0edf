import Homomorphic.Curve.PointGroup
import Homomorphic.Number.Power

/-!
The group ristretto255: the points of the twisted Edwards curve `-x² + y² = 1 + d x² y²` over the
field of `2 ^ 255 - 19` elements, up to points of small order, with one encoding for each class.
-/

namespace Homomorphic.Ristretto

def p : Nat := (1 <<< 255) - 19

def order : Nat := (1 <<< 252) + 27742317777372353535851937790883648493

def d : Nat := 37095705934669439343138083508754565189542113879843219016388785533085940283555

def sqrtM1 : Nat := 19681161376707505956807079304988542015446066515923890162744021073123829784752

def invSqrtAMinusD : Nat :=
  54469307008909316920995813868745141605393597292927456921205312896311721017578

def add (a b : Nat) : Nat := (a + b) % p

def sub (a b : Nat) : Nat := (a + (p - b)) % p

def mul (a b : Nat) : Nat := a * b % p

def neg (a : Nat) : Nat := (p - a) % p

def isNegative (a : Nat) : Bool := a % 2 = 1

def abs (a : Nat) : Nat := if isNegative a then neg a else a

def squares : Nat → Nat → Nat
  | 0, a => a
  | n + 1, a => squares n (mul a a)

def onesPower (a : Nat) : Nat → Nat → Nat
  | 0, _ => 1
  | depth + 1, n =>
    if n = 0 then 1
    else
      let half := onesPower a depth (n / 2)
      let even := mul (squares (n / 2) half) half
      if n % 2 = 1 then mul (mul even even) a else even

def rootPower (a : Nat) : Nat := mul (squares 2 (onesPower a 8 250)) a

/-- A square root of `u / v` and true, or of `sqrtM1 * u / v` and false if `u / v` is no square; the
root is not negative. -/
def sqrtRatio (u v : Nat) : Bool × Nat :=
  let v3 := mul (mul v v) v
  let v7 := mul (mul v3 v3) v
  let r := mul (mul u v3) (rootPower (mul u v7))
  let check := mul v (mul r r)
  let correct := check == u
  let flipped := check == neg u
  let flippedI := check == neg (mul u sqrtM1)
  let r := if flipped || flippedI then mul sqrtM1 r else r
  (correct || flipped, abs r)

structure Point where
  x : Nat
  y : Nat
  z : Nat
  t : Nat

def Point.zero : Point := ⟨0, 1, 1, 0⟩

def Point.base : Point :=
  let x := 15112221349535400772501151409588531511454012693041857206046113283949847762202
  let y := 46316835694926478169428394003475163141307993866256225615783033603165251855960
  ⟨x, y, 1, mul x y⟩

def Point.add (a b : Point) : Point :=
  let m := (a.y + (p - a.x)) * (b.y + (p - b.x)) % p
  let n := (a.y + a.x) * (b.y + b.x) % p
  let k := 2 * d * a.t % p * b.t % p
  let l := 2 * a.z * b.z % p
  let e := n + (p - m)
  let f := l + (p - k)
  let g := l + k
  let h := n + m
  ⟨e * f % p, g * h % p, f * g % p, e * h % p⟩

def Point.neg (a : Point) : Point := ⟨Ristretto.neg a.x, a.y, a.z, Ristretto.neg a.t⟩

def Point.same (a b : Point) : Bool :=
  mul a.x b.y == mul a.y b.x || mul a.x b.x == mul a.y b.y

def Point.representative (a : Point) : Nat :=
  let u1 := mul (Ristretto.add a.z a.y) (sub a.z a.y)
  let u2 := mul a.x a.y
  let (_, root) := sqrtRatio 1 (mul u1 (mul u2 u2))
  let den1 := mul root u1
  let den2 := mul root u2
  let zInv := mul (mul den1 den2) a.t
  let rotate := isNegative (mul a.t zInv)
  let x := if rotate then mul a.y sqrtM1 else a.x
  let y := if rotate then mul a.x sqrtM1 else a.y
  let den := if rotate then mul den1 invSqrtAMinusD else den2
  let y := if isNegative (mul x zInv) then Ristretto.neg y else y
  abs (mul den (sub a.z y))

def Point.encode (a : Point) : Bytes := Bytes.ofNat PointGroup.width a.representative

def Point.ofRepresentative? (s : Nat) : Option Point :=
  if p ≤ s ∨ isNegative s then none
  else
    let ss := mul s s
    let u1 := sub 1 ss
    let u2 := Ristretto.add 1 ss
    let u2Square := mul u2 u2
    let v := sub (Ristretto.neg (mul d (mul u1 u1))) u2Square
    let (square, root) := sqrtRatio 1 (mul v u2Square)
    let denX := mul root u2
    let denY := mul (mul root denX) v
    let x := abs (mul (2 * s) denX)
    let y := mul u1 denY
    let t := mul x y
    if !square || isNegative t || y == 0 then none else some ⟨x, y, 1, t⟩

def Point.decode (bytes : Bytes) : Option Point := ofRepresentative? bytes.toNat

def group : PointGroup where
  Point := Point
  order := order
  one_lt_order := by decide
  zero := Point.zero
  base := Point.base
  add := Point.add
  neg := Point.neg
  same := Point.same
  encode := Point.encode
  decode := Point.decode

end Homomorphic.Ristretto
