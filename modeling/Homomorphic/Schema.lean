namespace Homomorphic

inductive Schema where
  | paillier
  | ou
  | elgamal
  deriving DecidableEq, Repr

namespace Schema

def name : Schema → String
  | .paillier => "paillier"
  | .ou => "ou"
  | .elgamal => "elgamal"

def ofName? (text : String) : Option Schema :=
  if text = paillier.name then some .paillier
  else if text = ou.name then some .ou
  else if text = elgamal.name then some .elgamal
  else none

def tag : Schema → UInt8
  | .paillier => 1
  | .ou => 2
  | .elgamal => 3

def ofTag? (byte : UInt8) : Option Schema :=
  if byte = 1 then some .paillier
  else if byte = 2 then some .ou
  else if byte = 3 then some .elgamal
  else none

theorem ofName?_name (s : Schema) : ofName? s.name = some s := by
  cases s <;> decide

theorem ofTag?_tag (s : Schema) : ofTag? s.tag = some s := by
  cases s <;> rfl

end Schema

end Homomorphic
