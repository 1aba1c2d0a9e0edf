import Homomorphic.Binary64.Decimal
import Homomorphic.Limits
import Homomorphic.Schema
import Homomorphic.Text.Hex
import Homomorphic.Text.Utf8

namespace Homomorphic

inductive DomainFault where
  | beyondHalfModulus (keySize : Nat)
  | beyondBits (bits : Nat)
  | beyondBound (negative : Bool) (bound : Nat)
  | outsideSquare
  | outsideModulus
  | foreignCurve (ciphertext key : String)
  | noLogarithm (bound : Nat)
  | wideInteger (plaintext : Int)
  deriving DecidableEq, Repr

inductive KeyFault where
  | zeroPrime
  | equalPrimes
  | compositePrime
  | shortModulus (bits : Nat)
  | wrongLambda
  | wrongMu
  | lambdaNotInvertible
  | squareNotInvertible
  | zeroModulus
  | evenModulus
  | zeroOrEvenModulus
  | notUnit (name modulus : String)
  | gpInvOutside
  | zeroScalar
  | scalarNotCanonical
  | identityPoint
  deriving DecidableEq, Repr

inductive ParameterFault where
  | keySize (bits : Nat)
  | primeWidth (bits : Nat)
  | samplingBound
  | maxPlaintext (bound : Nat)
  | tableBits (bits : Nat)
  | giantSteps (bound tableBits : Nat)
  | scale (scale : Int)
  | notFinite (x : Binary64)
  | schemaName (text : String)
  | lengths (left right : Nat)
  | emptySum
  deriving DecidableEq, Repr

inductive SearchFault where
  | prime (bits : Nat)
  | suitable (what : String)
  deriving DecidableEq, Repr

inductive DrawFault where
  | below (bits : Nat)
  | unit
  | scalar
  deriving DecidableEq, Repr

inductive ContentFault where
  | empty
  | schemaTag (tag : UInt8)
  | pointWidth (width count : Nat)
  | point (bytes : Bytes)
  deriving DecidableEq, Repr

inductive WireFault where
  | endOfBytes
  | endOfText
  | trailingBytes
  | notText (fault : Utf8.Fault)
  | sign (byte : Int)
  | variant (index : Nat)
  | sizeLimit
  deriving DecidableEq, Repr

inductive Error where
  | domain (fault : DomainFault)
  | keyState (fault : KeyFault)
  | noInverse (value modulus : Nat)
  | invalidModulus (modulus : Nat)
  | invalidParameters (fault : ParameterFault)
  | keyGeneration (fault : SearchFault)
  | randomnessExhausted (fault : DrawFault)
  | schemaMismatch (expected got : Schema)
  | unknownCurve (id : UInt64)
  | unsupportedCurve (curve library : String)
  | serialization (fault : ContentFault)
  | wire (fault : WireFault)
  | json
  deriving DecidableEq, Repr

def DomainFault.message : DomainFault → String
  | beyondHalfModulus keySize => s!"Plaintext exceeds the {keySize}-bit key's bound n/2"
  | beyondBits bits => s!"Plaintext exceeds the OU bound of {bits} bits"
  | beyondBound negative bound =>
    (if negative then "negative " else "") ++ s!"plaintext exceeds the EC bound {bound}"
  | outsideSquare => "Ciphertext must lie in (0, n²)"
  | outsideModulus => "Ciphertext must lie in (0, n)"
  | foreignCurve ciphertext key => s!"Ciphertext is on {ciphertext} but the key is on {key}"
  | noLogarithm bound => s!"Decrypted value is outside [-{bound}, {bound}]"
  | wideInteger plaintext => s!"Decoded value {plaintext} does not fit in i64"

def KeyFault.message : KeyFault → String
  | zeroPrime => "Primes p and q must be non-zero"
  | equalPrimes => "Primes p and q must differ"
  | compositePrime => "p and q must be prime"
  | shortModulus bits =>
    s!"Modulus has {bits} bits, at least " ++ toString Limits.minKeySize ++ " required"
  | wrongLambda => "λ must equal lcm(p - 1, q - 1)"
  | wrongMu => "μ must be the inverse of λ mod n"
  | lambdaNotInvertible => "λ is not invertible modulo n"
  | squareNotInvertible => "q² is not invertible modulo p²"
  | zeroModulus => "Modulus n must be non-zero"
  | evenModulus => "Modulus n must be odd"
  | zeroOrEvenModulus => "Modulus n must be odd and non-zero"
  | notUnit name modulus => s!"{name} must be a unit modulo {modulus}"
  | gpInvOutside => "gp_inv must lie in (0, p)"
  | zeroScalar => "Secret scalar must be non-zero"
  | scalarNotCanonical => "Secret scalar is not canonical"
  | identityPoint => "Public point must not be the identity"

def ParameterFault.message : ParameterFault → String
  | keySize bits =>
    s!"Key size {bits} is below the minimum of " ++ toString Limits.minKeySize ++ " bits"
  | primeWidth bits =>
    "Prime width must be at least " ++ toString Limits.minPrimeBits ++ s!" bits, got {bits}"
  | samplingBound => "Sampling bound must be positive"
  | maxPlaintext bound =>
    "EC plaintext bound must be in 1..=" ++ toString Limits.maxMaxPlaintext ++ s!", got {bound}"
  | tableBits bits =>
    "Baby-step table bits must be in 1..=" ++ toString Limits.maxTableBits ++ s!", got {bits}"
  | giantSteps bound bits =>
    s!"Bound {bound} needs more than " ++ toString Limits.maxGiantSteps
      ++ s!" giant steps with a 2^{bits} table"
  | scale value => s!"Encoder scale must be positive, got {value}"
  | notFinite x => "Cannot encode non-finite value " ++ x.text
  | schemaName text => s!"Unknown schema '{text}'"
  | lengths left right => s!"Operand lengths differ: {left} vs {right}"
  | emptySum => "Cannot sum an empty slice"

def SearchFault.message : SearchFault → String
  | prime bits =>
    s!"No {bits}-bit prime found after " ++ toString Limits.maxPrimeCandidates ++ " candidates"
  | suitable what =>
    s!"No suitable {what} after " ++ toString Limits.maxKeygenAttempts ++ " attempts"

def DrawFault.message : DrawFault → String
  | below bits =>
    s!"No sample below a {bits}-bit bound after " ++ toString Limits.maxRandomAttempts ++ " draws"
  | unit => "No unit of Z_n found after " ++ toString Limits.maxRandomAttempts ++ " draws"
  | scalar => "No non-zero scalar drawn"

def ContentFault.message : ContentFault → String
  | empty => "Empty buffer"
  | schemaTag tag => s!"Unknown schema tag {tag}"
  | pointWidth width count => s!"Expected {width} point bytes, got {count}"
  | point bytes => "Invalid point encoding " ++ Hex.ofBytes bytes

def WireFault.message : WireFault → String
  | endOfBytes => "io error: unexpected end of file"
  | endOfText => "io error: "
  | trailingBytes => "Slice had bytes remaining after deserialization"
  | notText fault => "string is not valid utf8: " ++ fault.message
  | sign byte => s!"invalid value: integer `{byte}`, expected a sign of -1, 0, or 1"
  | variant index => s!"invalid value: integer `{index}`, expected variant index 0 <= i < 2"
  | sizeLimit => "the size limit has been reached"

def Error.message? : Error → Option String
  | domain fault => some ("DomainError: " ++ fault.message)
  | keyState fault => some ("KeyStateError: " ++ fault.message)
  | noInverse value modulus =>
    some ("NoInverse: " ++
      if value = 0 then s!"Cannot invert 0 in mod {modulus}"
      else s!"Modular inverse does not exist for {value} mod {modulus}")
  | invalidModulus modulus =>
    some s!"InvalidModulus: Modulus must be greater than 1, got {modulus}"
  | invalidParameters fault => some ("InvalidParameters: " ++ fault.message)
  | keyGeneration fault => some ("Key generation failed: " ++ fault.message)
  | randomnessExhausted fault => some ("Randomness source exhausted: " ++ fault.message)
  | schemaMismatch expected got =>
    some ("Schema mismatch: expected a " ++ expected.name ++ " value, got " ++ got.name)
  | unknownCurve id =>
    some ("Curve with id 0x" ++ Hex.padded 16 id.toNat ++ " is not registered")
  | unsupportedCurve curve library => some s!"Unsupported curve: {curve} from {library}"
  | serialization fault => some ("Serialization error: " ++ fault.message)
  | wire fault => some ("Binary serialization: " ++ fault.message)
  | json => none

end Homomorphic
