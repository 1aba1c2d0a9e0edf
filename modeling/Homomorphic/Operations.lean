import Homomorphic.Entropy
import Homomorphic.Json

/-!
What the holder of a public key can do, whatever the scheme: encrypt, and compute on ciphertexts. Of
a list the first failure in its order is the failure of the whole.
-/

namespace Homomorphic

abbrev Audit := List (String × String)

def Audit.text (record : Audit) : String :=
  (Json.ofFields (record.map fun (name, value) => (name, .ofText value))).compact

structure Operations (κ : Type) where
  draw : Draw Nat
  encryptWith : Int → Nat → Except Error κ
  audit : Int → Nat → Except Error (κ × Audit)
  check : κ → Except Error Unit
  add : κ → κ → Except Error κ
  sub : κ → κ → Except Error κ
  negate : κ → Except Error κ
  addPlain : κ → Int → Except Error κ
  mul : κ → Int → Except Error κ
  blind : κ → Nat → Except Error κ

namespace Operations

variable {κ : Type} (ops : Operations κ)

def encrypt (m : Int) : Draw κ := do
  let r ← ops.draw
  ops.encryptWith m r

def encryptZero : Draw κ := ops.encrypt 0

def encryptAudited (m : Int) : Draw (κ × Audit) := do
  let r ← ops.draw
  ops.audit m r

def randomize (a : κ) : Draw κ := do
  ops.check a
  let r ← ops.draw
  ops.blind a r

def subPlain (a : κ) (m : Int) : Except Error κ := ops.addPlain a (-m)

def sumRun : List κ → Except Error κ
  | [] => .error (.invalidParameters .emptySum)
  | first :: rest => rest.foldlM ops.add first

def sumHalves : Nat → List κ → Except Error κ
  | 0, cs => ops.sumRun cs
  | depth + 1, cs =>
    if cs.length < 2 then ops.sumRun cs
    else do
      let left ← sumHalves depth (cs.take (cs.length / 2))
      let right ← sumHalves depth (cs.drop (cs.length / 2))
      ops.add left right

/-- How often `sum` halves its list: a choice made here, for which no value is fixed. Where the halves
are summed side by side, the split is up to the scheduler. -/
def splitDepth : Nat := 3

def sum (cs : List κ) : Except Error κ := ops.sumHalves splitDepth cs

def addAll (as bs : List κ) : Except Error (List κ) :=
  if as.length = bs.length then (as.zip bs).mapM fun (a, b) => ops.add a b
  else .error (.invalidParameters (.lengths as.length bs.length))

def encryptAll (ms : List Int) : Draw (List κ) := ms.mapM ops.encrypt

def lift {τ : Type} (wrap : κ → τ) (unwrap : τ → Except Error κ) : Operations τ where
  draw := ops.draw
  encryptWith m r := return wrap (← ops.encryptWith m r)
  audit m r := return (fun (c, record) => (wrap c, record)) (← ops.audit m r)
  check a := do ops.check (← unwrap a)
  add a b := do
    let a ← unwrap a
    let b ← unwrap b
    return wrap (← ops.add a b)
  sub a b := do
    let a ← unwrap a
    let b ← unwrap b
    return wrap (← ops.sub a b)
  negate a := return wrap (← ops.negate (← unwrap a))
  addPlain a m := return wrap (← ops.addPlain (← unwrap a) m)
  mul a k := return wrap (← ops.mul (← unwrap a) k)
  blind a r := return wrap (← ops.blind (← unwrap a) r)

end Operations

end Homomorphic
