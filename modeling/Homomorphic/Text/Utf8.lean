import Homomorphic.Bytes

namespace Homomorphic.Utf8

inductive Fault where
  | invalid (count index : Nat)
  | incomplete (index : Nat)
  deriving DecidableEq, Repr

def Fault.message : Fault → String
  | .invalid count index =>
    "invalid utf-8 sequence of " ++ toString count ++ " bytes from index " ++ toString index
  | .incomplete index => "incomplete utf-8 byte sequence from index " ++ toString index

abbrev Range := UInt8 × UInt8

def continuing : Range := (0x80, 0xBF)

def leading? (b : UInt8) : Option (Nat × List Range) :=
  if b < 0x80 then some (b.toNat, [])
  else if b < 0xC2 then none
  else if b < 0xE0 then some (b.toNat - 0xC0, [continuing])
  else if b = 0xE0 then some (0, [(0xA0, 0xBF), continuing])
  else if b = 0xED then some (0xD, [(0x80, 0x9F), continuing])
  else if b < 0xF0 then some (b.toNat - 0xE0, [continuing, continuing])
  else if b = 0xF0 then some (0, [(0x90, 0xBF), continuing, continuing])
  else if b < 0xF4 then some (b.toNat - 0xF0, [continuing, continuing, continuing])
  else if b = 0xF4 then some (4, [(0x80, 0x8F), continuing, continuing])
  else none

/-- Reads characters behind those already read. The character under way begins at index `start`,
has `taken` bytes with the bits `value`, and lacks bytes in the `pending` ranges. -/
def scan : Bytes → Nat → Nat → Nat → List Range → List Char → Except Fault (List Char)
  | [], start, _, _, pending, read =>
    if pending.isEmpty then .ok read.reverse else .error (.incomplete start)
  | b :: rest, start, _, _, [], read =>
    match leading? b with
    | none => .error (.invalid 1 start)
    | some (value, []) => scan rest (start + 1) 0 0 [] (Char.ofNat value :: read)
    | some (value, pending) => scan rest start 1 value pending read
  | b :: rest, start, taken, value, (low, high) :: pending, read =>
    if low ≤ b ∧ b ≤ high then
      let value := 64 * value + b.toNat % 64
      match pending with
      | [] => scan rest (start + taken + 1) 0 0 [] (Char.ofNat value :: read)
      | pending => scan rest start (taken + 1) value pending read
    else .error (.invalid taken start)

def decode (bytes : Bytes) : Except Fault String :=
  (scan bytes 0 0 0 [] []).map String.ofList

def encode (text : String) : Bytes := text.toList.flatMap String.utf8EncodeChar

end Homomorphic.Utf8
