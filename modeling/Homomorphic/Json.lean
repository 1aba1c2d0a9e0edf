import Homomorphic.Text.Hex

namespace Homomorphic

namespace Json

/-- What a string literal stands for: a text, or none if its escapes name half of a surrogate pair
without the other half. -/
abbrev Text := Option String

structure DecimalDigits where
  first : Fin 10
  rest : List (Fin 10)
  deriving DecidableEq, Repr

structure Numeral where
  negative : Bool
  whole : Nat
  fraction : Option DecimalDigits
  exponent : Option (Bool × DecimalDigits)
  deriving DecidableEq, Repr

def Numeral.toInt? (n : Numeral) : Option Int :=
  if n.fraction.isSome ∨ n.exponent.isSome ∨ (n.negative ∧ n.whole = 0) then none
  else some (if n.negative then -(n.whole : Int) else n.whole)

def Numeral.ofInt (x : Int) : Numeral := ⟨x < 0, x.natAbs, none, none⟩

end Json

inductive Json where
  | null
  | bool (value : Bool)
  | number (value : Json.Numeral)
  | string (value : Json.Text)
  | array (items : List Json)
  | object (fields : List (Json.Text × Json))

namespace Json

def ofText (text : String) : Json := .string (some text)

def ofInt (x : Int) : Json := .number (.ofInt x)

def ofFields (fields : List (String × Json)) : Json :=
  .object (fields.map fun (name, value) => (some name, value))

def writeChar (c : Char) : List Char :=
  if c = '"' then ['\\', '"']
  else if c = '\\' then ['\\', '\\']
  else if c = '\n' then ['\\', 'n']
  else if c = '\r' then ['\\', 'r']
  else if c = '\t' then ['\\', 't']
  else if c = '\x08' then ['\\', 'b']
  else if c = '\x0c' then ['\\', 'f']
  else if c.toNat < 32 then
    ['\\', 'u', '0', '0', Hex.digit (c.toNat / 16), Hex.digit (c.toNat % 16)]
  else [c]

def writeText : Text → List Char
  | some text => '"' :: (text.toList.flatMap writeChar ++ ['"'])
  | none => "\"\\ud800\"".toList

def writeDigit (d : Nat) : Char := Char.ofNat ('0'.toNat + d)

def DecimalDigits.toList (d : DecimalDigits) : List Nat := d.first.val :: d.rest.map Fin.val

def DecimalDigits.write (d : DecimalDigits) : List Char := d.toList.map writeDigit

def Numeral.write (n : Numeral) : List Char :=
  (if n.negative then ['-'] else []) ++ (Digits.ofNat 10 n.whole).map writeDigit
    ++ (match n.fraction with
      | some digits => '.' :: digits.write
      | none => [])
    ++ (match n.exponent with
      | some (negative, digits) => 'e' :: ((if negative then ['-'] else []) ++ digits.write)
      | none => [])

structure Layout where
  lineBreak : Nat → List Char
  afterColon : List Char

def Layout.compact : Layout := ⟨fun _ => [], []⟩

def Layout.indented : Layout := ⟨fun depth => '\n' :: List.replicate (2 * depth) ' ', [' ']⟩

mutual

def write (layout : Layout) (depth : Nat) : Json → List Char
  | .null => "null".toList
  | .bool value => (if value then "true" else "false").toList
  | .number value => value.write
  | .string value => writeText value
  | .array [] => ['[', ']']
  | .array (item :: items) =>
    '[' :: layout.lineBreak (depth + 1) ++ write layout (depth + 1) item
      ++ writeItems layout depth items
  | .object [] => ['\x7b', '\x7d']
  | .object ((name, value) :: fields) =>
    '\x7b' :: layout.lineBreak (depth + 1) ++ writeText name ++ ':' :: layout.afterColon
      ++ write layout (depth + 1) value ++ writeFields layout depth fields

def writeItems (layout : Layout) (depth : Nat) : List Json → List Char
  | [] => layout.lineBreak depth ++ [']']
  | item :: items =>
    ',' :: layout.lineBreak (depth + 1) ++ write layout (depth + 1) item
      ++ writeItems layout depth items

def writeFields (layout : Layout) (depth : Nat) : List (Text × Json) → List Char
  | [] => layout.lineBreak depth ++ ['\x7d']
  | (name, value) :: fields =>
    ',' :: layout.lineBreak (depth + 1) ++ writeText name ++ ':' :: layout.afterColon
      ++ write layout (depth + 1) value ++ writeFields layout depth fields

end

def compact (value : Json) : String := String.ofList (write .compact 0 value)

def pretty (value : Json) : String := String.ofList (write .indented 0 value)

end Json

end Homomorphic
