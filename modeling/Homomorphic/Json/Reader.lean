import Homomorphic.Json

namespace Homomorphic.Json

def isBlank (c : Char) : Bool := c = ' ' || c = '\n' || c = '\t' || c = '\r'

def skipBlanks (cs : List Char) : List Char := cs.dropWhile isBlank

inductive Piece where
  | char (c : Char)
  | unit (value : Nat)

def hexValue? (c : Char) : Option Nat :=
  if 'A' ≤ c ∧ c ≤ 'F' then some (c.toNat - 'A'.toNat + 10) else Hex.digitValue? c

def readUnit? (a b c d : Char) : Option Nat := do
  return ((16 * (← hexValue? a) + (← hexValue? b)) * 16 + (← hexValue? c)) * 16 + (← hexValue? d)

def escape? (c : Char) : Option Char :=
  if c = '"' ∨ c = '\\' ∨ c = '/' then some c
  else if c = 'n' then some '\n'
  else if c = 'r' then some '\r'
  else if c = 't' then some '\t'
  else if c = 'b' then some '\x08'
  else if c = 'f' then some '\x0c'
  else none

def readPieces : List Char → List Piece → Option (List Piece × List Char)
  | '"' :: rest, read => some (read.reverse, rest)
  | '\\' :: 'u' :: a :: b :: c :: d :: rest, read =>
    (readUnit? a b c d).bind fun value => readPieces rest (.unit value :: read)
  | '\\' :: c :: rest, read => (escape? c).bind fun c => readPieces rest (.char c :: read)
  | c :: rest, read => if c.toNat < 32 ∨ c = '\\' then none else readPieces rest (.char c :: read)
  | [], _ => none

def isHighSurrogate (value : Nat) : Bool := 0xD800 ≤ value && value < 0xDC00

def isLowSurrogate (value : Nat) : Bool := 0xDC00 ≤ value && value < 0xE000

def joinPieces : List Piece → Option (List Char)
  | [] => some []
  | .char c :: rest => (joinPieces rest).map (c :: ·)
  | .unit high :: .unit low :: rest =>
    if isHighSurrogate high then
      if isLowSurrogate low then
        let c := Char.ofNat (0x10000 + (high - 0xD800) * 0x400 + (low - 0xDC00))
        (joinPieces rest).map (c :: ·)
      else none
    else if isLowSurrogate high then none
    else (joinPieces (.unit low :: rest)).map (Char.ofNat high :: ·)
  | .unit value :: rest =>
    if isHighSurrogate value || isLowSurrogate value then none
    else (joinPieces rest).map (Char.ofNat value :: ·)

def readText (cs : List Char) : Option (Text × List Char) :=
  (readPieces cs []).map fun (pieces, rest) => ((joinPieces pieces).map String.ofList, rest)

def digit? (c : Char) : Option (Fin 10) :=
  if c.isDigit then some (Fin.ofNat 10 (c.toNat - '0'.toNat)) else none

def readDigits (cs : List Char) : List (Fin 10) × List Char :=
  ((cs.takeWhile Char.isDigit).filterMap digit?, cs.dropWhile Char.isDigit)

def readSomeDigits (cs : List Char) : Option (DecimalDigits × List Char) :=
  match readDigits cs with
  | ([], _) => none
  | (first :: others, rest) => some (⟨first, others⟩, rest)

def DecimalDigits.toNat (d : DecimalDigits) : Nat := Digits.toNat 10 d.toList

def readWhole : List Char → Option (Nat × List Char)
  | '0' :: rest => some (0, rest)
  | cs => (readSomeDigits cs).map fun (digits, rest) => (digits.toNat, rest)

def readFraction : List Char → Option (Option DecimalDigits × List Char)
  | '.' :: rest => (readSomeDigits rest).map fun (digits, rest) => (some digits, rest)
  | cs => some (none, cs)

def readSign : List Char → Bool × List Char
  | '-' :: rest => (true, rest)
  | '+' :: rest => (false, rest)
  | cs => (false, cs)

def readExponent : List Char → Option (Option (Bool × DecimalDigits) × List Char)
  | c :: rest =>
    if c = 'e' ∨ c = 'E' then
      let (negative, rest) := readSign rest
      (readSomeDigits rest).map fun (digits, rest) => (some (negative, digits), rest)
    else some (none, c :: rest)
  | [] => some (none, [])

def readUnsigned (negative : Bool) (cs : List Char) : Option (Json × List Char) := do
  let (whole, cs) ← readWhole cs
  let (fraction, cs) ← readFraction cs
  let (exponent, cs) ← readExponent cs
  return (.number ⟨negative, whole, fraction, exponent⟩, cs)

def readScalar : List Char → Option (Json × List Char)
  | '"' :: rest => (readText rest).map fun (text, rest) => (.string text, rest)
  | '-' :: rest => readUnsigned true rest
  | 'n' :: 'u' :: 'l' :: 'l' :: rest => some (.null, rest)
  | 't' :: 'r' :: 'u' :: 'e' :: rest => some (.bool true, rest)
  | 'f' :: 'a' :: 'l' :: 's' :: 'e' :: rest => some (.bool false, rest)
  | cs => readUnsigned false cs

def readName (cs : List Char) : Option (Text × List Char) :=
  match skipBlanks cs with
  | '"' :: rest => do
    let (name, rest) ← readText rest
    match skipBlanks rest with
    | ':' :: rest => return (name, rest)
    | _ => none
  | _ => none

mutual

def readValue : Nat → List Char → Option (Json × List Char)
  | 0, _ => none
  | fuel + 1, cs =>
    match skipBlanks cs with
    | '[' :: rest =>
      match skipBlanks rest with
      | ']' :: rest => some (.array [], rest)
      | rest => do
        let (item, rest) ← readValue fuel rest
        readItems fuel rest [item]
    | '\x7b' :: rest =>
      match skipBlanks rest with
      | '\x7d' :: rest => some (.object [], rest)
      | rest => do
        let (name, rest) ← readName rest
        let (value, rest) ← readValue fuel rest
        readFields fuel rest [(name, value)]
    | cs => readScalar cs

def readItems : Nat → List Char → List Json → Option (Json × List Char)
  | 0, _, _ => none
  | fuel + 1, cs, read =>
    match skipBlanks cs with
    | ']' :: rest => some (.array read.reverse, rest)
    | ',' :: rest => do
      let (item, rest) ← readValue fuel rest
      readItems fuel rest (item :: read)
    | _ => none

def readFields : Nat → List Char → List (Text × Json) → Option (Json × List Char)
  | 0, _, _ => none
  | fuel + 1, cs, read =>
    match skipBlanks cs with
    | '\x7d' :: rest => some (.object read.reverse, rest)
    | ',' :: rest => do
      let (name, rest) ← readName rest
      let (value, rest) ← readValue fuel rest
      readFields fuel rest ((name, value) :: read)
    | _ => none

end

def parse? (text : String) : Option Json :=
  let cs := text.toList
  match readValue (cs.length + 1) cs with
  | some (value, rest) => if (skipBlanks rest).isEmpty then some value else none
  | none => none

end Homomorphic.Json
