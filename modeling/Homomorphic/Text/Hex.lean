import Homomorphic.Bytes
import Homomorphic.Text.Digits

namespace Homomorphic.Hex

def digit (n : Nat) : Char :=
  if n < 10 then Char.ofNat ('0'.toNat + n) else Char.ofNat ('a'.toNat + (n - 10))

def digitValue? (c : Char) : Option Nat :=
  if '0' ≤ c ∧ c ≤ '9' then some (c.toNat - '0'.toNat)
  else if 'a' ≤ c ∧ c ≤ 'f' then some (c.toNat - 'a'.toNat + 10)
  else none

theorem digitValue?_digit {n : Nat} (h : n < 16) : digitValue? (digit n) = some n := by
  revert n
  decide

def natDigits (n : Nat) : List Char := (Digits.ofNat 16 n).map digit

def ofNat (n : Nat) : String := String.ofList (natDigits n)

def ofInt (x : Int) : String :=
  String.ofList (if x < 0 then '-' :: natDigits x.natAbs else natDigits x.natAbs)

def ofBytes (bytes : Bytes) : String :=
  String.ofList (bytes.flatMap fun b => [digit (b.toNat / 16), digit (b.toNat % 16)])

def padded (width n : Nat) : String :=
  let digits := natDigits n
  String.ofList (List.replicate (width - digits.length) '0' ++ digits)

def readNat? (cs : List Char) : Option Nat :=
  if cs.isEmpty then none else (cs.mapM digitValue?).map (Digits.toNat 16)

def readInt? : List Char → Option Int
  | '-' :: digits => (readNat? digits).map fun n => -(n : Int)
  | digits => (readNat? digits).map Int.ofNat

def readBytes? : List Char → Option Bytes
  | [] => some []
  | [_] => none
  | high :: low :: rest => do
    let h ← digitValue? high
    let l ← digitValue? low
    let bytes ← readBytes? rest
    return UInt8.ofNat (16 * h + l) :: bytes

def toNat? (text : String) : Option Nat := readNat? text.toList

def toInt? (text : String) : Option Int := readInt? text.toList

def toBytes? (text : String) : Option Bytes := readBytes? text.toList

end Homomorphic.Hex
