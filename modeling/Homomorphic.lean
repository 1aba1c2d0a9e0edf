import Homomorphic.Bytes.Laws
import Homomorphic.Curve.Ristretto
import Homomorphic.Entropy.SplitMix
import Homomorphic.Kit
import Homomorphic.Number.Laws
import Homomorphic.Number.StrongTest
import Homomorphic.Program
import Homomorphic.Proofs.AuditRecords
import Homomorphic.Proofs.BytesTaken
import Homomorphic.Proofs.Config
import Homomorphic.Proofs.Curve.PointGroup
import Homomorphic.Proofs.DigitSequences
import Homomorphic.Proofs.Dispatch
import Homomorphic.Proofs.Draw
import Homomorphic.Proofs.ElGamal.BabySteps
import Homomorphic.Proofs.ElGamal.Canonical
import Homomorphic.Proofs.ElGamal.Decryption
import Homomorphic.Proofs.ElGamal.Encoding
import Homomorphic.Proofs.ElGamal.GiantSteps
import Homomorphic.Proofs.ElGamal.Group
import Homomorphic.Proofs.ElGamal.Key
import Homomorphic.Proofs.ElGamal.Logarithm
import Homomorphic.Proofs.ElGamal.Unbounded
import Homomorphic.Proofs.Encoding
import Homomorphic.Proofs.FixedBase
import Homomorphic.Proofs.Forms
import Homomorphic.Proofs.Homomorphism
import Homomorphic.Proofs.Invariants
import Homomorphic.Proofs.IntegerPowers
import Homomorphic.Proofs.Inverse
import Homomorphic.Proofs.Json.Scalars
import Homomorphic.Proofs.Json.Values
import Homomorphic.Proofs.KeyKinds
import Homomorphic.Proofs.Kit
import Homomorphic.Proofs.Loading
import Homomorphic.Proofs.ModuleLaws
import Homomorphic.Proofs.NamedCurves
import Homomorphic.Proofs.OkamotoUchiyama.Decryption
import Homomorphic.Proofs.OkamotoUchiyama.Encoding
import Homomorphic.Proofs.OkamotoUchiyama.GeneratedKeys
import Homomorphic.Proofs.OkamotoUchiyama.Group
import Homomorphic.Proofs.OkamotoUchiyama.Key
import Homomorphic.Proofs.OkamotoUchiyama.KeyGeneration
import Homomorphic.Proofs.Paillier.Acceptance
import Homomorphic.Proofs.Paillier.Decryption
import Homomorphic.Proofs.Paillier.Encoding
import Homomorphic.Proofs.Paillier.Formula
import Homomorphic.Proofs.Paillier.GeneratedKeys
import Homomorphic.Proofs.Paillier.Group
import Homomorphic.Proofs.Paillier.Key
import Homomorphic.Proofs.Paillier.KeyGeneration
import Homomorphic.Proofs.Paillier.Power
import Homomorphic.Proofs.PrefixFree
import Homomorphic.Proofs.Primality
import Homomorphic.Proofs.PrincipalUnit
import Homomorphic.Proofs.Reading
import Homomorphic.Proofs.Realization
import Homomorphic.Proofs.Received
import Homomorphic.Proofs.Refusals
import Homomorphic.Proofs.Rejection
import Homomorphic.Proofs.Residue
import Homomorphic.Proofs.ResidueUnits
import Homomorphic.Proofs.Runs
import Homomorphic.Proofs.Sampling
import Homomorphic.Proofs.Sieve
import Homomorphic.Proofs.SumOperands
import Homomorphic.Proofs.Sums
import Homomorphic.Proofs.SymmetricRange
import Homomorphic.Proofs.Text.Hex
import Homomorphic.Proofs.Text.Utf8
import Homomorphic.Proofs.Uniformity
import Homomorphic.Proofs.Units
import Homomorphic.Proofs.Wire
import Homomorphic.Proofs.WireCap
import Homomorphic.Proofs.WireSize
import Homomorphic.Session
