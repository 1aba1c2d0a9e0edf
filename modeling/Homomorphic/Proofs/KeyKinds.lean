import Homomorphic.Paillier.KeyGeneration
import Homomorphic.Proofs.ElGamal.KeyGeneration
import Homomorphic.Proofs.Encoding
import Homomorphic.Proofs.OkamotoUchiyama.KeyGeneration

namespace Homomorphic

open PointGroup

variable {E : PointGroup} {test : ℕ → Bool} {bytes : Bytes}

inductive Generated (test : ℕ → Bool) : SecretKey E → PublicKey E → Prop
  | paillier {keySize : ℕ} {e e' : Entropy} {sk : Paillier.SecretKey} {pk : Paillier.PublicKey}
    (h : (Paillier.generate test keySize).outcome e = (.ok (sk, pk), e')) :
    Generated test (.paillier sk) (.paillier pk)
  | ou {keySize : ℕ} {e e' : Entropy} {sk : OkamotoUchiyama.SecretKey}
    {pk : OkamotoUchiyama.PublicKey}
    (h : (OkamotoUchiyama.generate test keySize).outcome e = (.ok (sk, pk), e')) :
    Generated test (.ou sk) (.ou pk)
  | elgamal {curve : NamedCurve} {bound : UInt64} {tableBits : UInt32} {e e' : Entropy}
    {sk : ElGamal.SecretKey E} {pk : ElGamal.PublicKey E}
    (h : (ElGamal.generateWith curve bound tableBits).outcome e = (.ok (sk, pk), e')) :
    Generated test (.elgamal sk) (.elgamal pk)

theorem SecretKey.reads_as_public_iff (exact : ExactTest test) {sk : SecretKey E}
    (hsk : sk.Accepted test) (h : sk.toBytes = .ok bytes) (r : Registry) :
    (∃ pk r', (PublicKey.ofBytes bytes : Loading (PublicKey E)).outcome r = (.ok pk, r')) ↔
      ∃ s, sk = .ou s ∧ Limits.minKeySize ≤ bitLength s.p.value ∧ s.q.value < s.p.value := by
  cases hsk with
  | paillier =>
    obtain ⟨payload, hpayload, rfl⟩ := Schema.mark_eq_ok.mp h
    have hread := Paillier.PublicKey.ofBytes_secretKey hpayload
    rw [PublicKey.ofBytes, Schema.outcome_split_mark]
    constructor
    · rintro ⟨pk, r', hpk⟩
      obtain ⟨a, ha, -⟩ := Loading.outcome_lift_bind_eq_ok.mp hpk
      rw [hread] at ha
      cases ha
    · rintro ⟨s, hs, -⟩
      cases hs
  | ou hparts =>
    obtain ⟨payload, hpayload, rfl⟩ := Schema.mark_eq_ok.mp h
    have hread := OkamotoUchiyama.PublicKey.ofBytes_secretKey hparts hpayload
    have hiff := OkamotoUchiyama.PublicKey.exists_ofParts_secretKey_iff exact hparts
    obtain ⟨rfl, rfl, -⟩ := OkamotoUchiyama.SecretKey.parts_of_ofParts hparts
    rw [PublicKey.ofBytes, Schema.outcome_split_mark]
    constructor
    · rintro ⟨pk, r', hpk⟩
      obtain ⟨a, ha, -⟩ := Loading.outcome_lift_bind_eq_ok.mp hpk
      exact ⟨_, rfl, hiff.mp ⟨a, hread.symm.trans ha⟩⟩
    · rintro ⟨s, hs, hsize⟩
      cases hs
      obtain ⟨a, ha⟩ := hiff.mpr hsize
      exact ⟨.ou a, r, Loading.outcome_lift_bind_of_ok _ (hread.trans ha) r⟩
  | elgamal =>
    obtain ⟨payload, hpayload, rfl⟩ := Schema.mark_eq_ok.mp h
    have hread := ElGamal.PublicKey.outcome_ofBytes_secretKey hpayload r
    rw [PublicKey.ofBytes, Schema.outcome_split_mark]
    constructor
    · rintro ⟨pk, r', hpk⟩
      obtain ⟨a, r₁, ha, -⟩ := Loading.outcome_bind_eq_ok.mp hpk
      rw [hread] at ha
      cases ha
    · rintro ⟨s, hs, -⟩
      cases hs

theorem PublicKey.exists_error_of_generated (exact : ExactTest test)
    (hwidth : ∀ a, (E.encode a).length = width) {sk : SecretKey E} {pk : PublicKey E}
    (hgenerated : Generated test sk pk) (h : pk.toBytes = .ok bytes) (r : Registry) :
    ∃ error r', (SecretKey.ofBytes test bytes : Loading (SecretKey E)).outcome r =
      (.error error, r') := by
  cases hgenerated with
  | paillier =>
    obtain ⟨payload, hpayload, rfl⟩ := Schema.mark_eq_ok.mp h
    have hread := Paillier.SecretKey.ofBytes_publicKey test hpayload
    rw [SecretKey.ofBytes, Schema.outcome_split_mark]
    exact ⟨_, r, Loading.outcome_lift_bind_of_error _ hread r⟩
  | ou hpair =>
    obtain ⟨payload, hpayload, rfl⟩ := Schema.mark_eq_ok.mp h
    have hprime := (OkamotoUchiyama.keyPair_of_outcome_generate exact hpair).not_prime
    have hread := OkamotoUchiyama.SecretKey.ofBytes_publicKey exact hprime hpayload
    rw [SecretKey.ofBytes, Schema.outcome_split_mark]
    exact ⟨_, r, Loading.outcome_lift_bind_of_error _ hread r⟩
  | @elgamal _ _ _ _ _ _ pk =>
    obtain ⟨payload, hpayload, rfl⟩ := Schema.mark_eq_ok.mp h
    have hread := ElGamal.SecretKey.outcome_ofBytes_publicKey (hwidth pk.y) hpayload r
    rw [SecretKey.ofBytes, Schema.outcome_split_mark]
    exact ⟨_, r, Loading.outcome_bind_of_error _ hread⟩

/-- An encoded public key that a generator has drawn never reads as a secret key. An encoded secret key
reads as a public key just if it is an Okamoto–Uchiyama key whose first prime would do as a modulus and
is above the second one; at a size of 1534 bits or more that is no multiple of three the generator
draws only such keys. -/
theorem reads_as_other_kind_iff (exact : ExactTest test) (hwidth : ∀ a, (E.encode a).length = width)
    (r : Registry) :
    (∀ (sk : SecretKey E) (bytes : Bytes), sk.Accepted test → sk.toBytes = .ok bytes →
      ((∃ pk r', (PublicKey.ofBytes bytes : Loading (PublicKey E)).outcome r = (.ok pk, r')) ↔
        ∃ s, sk = .ou s ∧ Limits.minKeySize ≤ bitLength s.p.value ∧ s.q.value < s.p.value)) ∧
    (∀ (keySize : ℕ) (e e' : Entropy) (sk : OkamotoUchiyama.SecretKey)
      (pk : OkamotoUchiyama.PublicKey) (bytes : Bytes),
      (OkamotoUchiyama.generate test keySize).outcome e = (.ok (sk, pk), e') →
      1534 ≤ keySize → ¬ 3 ∣ keySize → (SecretKey.ou sk : SecretKey E).toBytes = .ok bytes →
      ∃ pk' r', (PublicKey.ofBytes bytes : Loading (PublicKey E)).outcome r = (.ok pk', r')) ∧
    ∀ (sk : SecretKey E) (pk : PublicKey E) (bytes : Bytes), Generated test sk pk →
      pk.toBytes = .ok bytes →
      ∃ error r', (SecretKey.ofBytes test bytes : Loading (SecretKey E)).outcome r =
        (.error error, r') := by
  refine ⟨?_, ?_, ?_⟩
  · intro sk bytes hsk h
    exact sk.reads_as_public_iff exact hsk h r
  · intro keySize e e' sk pk bytes hdrawn hlarge hthree h
    have hpair := OkamotoUchiyama.keyPair_of_outcome_generate exact hdrawn
    apply (SecretKey.reads_as_public_iff exact (.ou hpair.parts) h r).mpr
    exact ⟨sk, rfl, hpair.minKeySize_le_bitLength_p hlarge, hpair.q_lt_p hthree⟩
  · intro sk pk bytes hgenerated h
    exact pk.exists_error_of_generated exact hwidth hgenerated h r

theorem SecretKey.exists_ou_mersenne_seven :
    ∃ s, OkamotoUchiyama.SecretKey.ofParts (fun n => decide n.Prime) (mersenne 521) 7
        (mersenne 521 - 1) = .ok s ∧
      (SecretKey.ou s : SecretKey E).toBytes =
        .ok (Schema.ou.mark (Wire.putNaturals [mersenne 521, 7, mersenne 521 - 1])) ∧
      Limits.minKeySize ≤ bitLength s.p.value ∧ s.q.value < s.p.value := by
  have hlength :
      (Wire.putNaturals [mersenne 521, 7, mersenne 521 - 1]).length ≤ Limits.maxWireBytes := by
    simp only [Wire.length_putNaturals_cons, Wire.length_putNatural, Wire.putNaturals_nil]
    decide +kernel
  have hsize : Limits.minKeySize ≤ bitLength (mersenne 521 * mersenne 521 * 7) :=
    lt_bitLength.mpr (by decide +kernel)
  have hmodulus : Limits.minKeySize ≤ bitLength (mersenne 521) := lt_bitLength.mpr (by decide +kernel)
  have hlt : 7 < mersenne 521 := by decide +kernel
  have hseven : Nat.Prime 7 := by norm_num
  have hprime := prime_mersenne_521
  generalize mersenne 521 = p at *
  have hs := OkamotoUchiyama.SecretKey.ofParts_of_prime exactTest_decide hprime hseven hlt.ne' hsize
    (show 0 < p - 1 by omega) (show p - 1 < p by omega)
  have hpayload := Wire.encode_eq_ok.mpr ⟨hlength, rfl⟩
  exact ⟨_, hs, Schema.mark_eq_ok.mpr ⟨_, hpayload, rfl⟩, hmodulus, hlt⟩

theorem reads_as_other_kind_ristretto :
    ∃ (s : OkamotoUchiyama.SecretKey) (sk : ElGamal.SecretKey Ristretto.group)
      (pk : ElGamal.PublicKey Ristretto.group) (bytes bytes' : Bytes) (e : Entropy),
      OkamotoUchiyama.SecretKey.ofParts (fun n => decide n.Prime) (mersenne 521) 7
        (mersenne 521 - 1) = .ok s ∧
      (SecretKey.ou s : SecretKey Ristretto.group).toBytes = .ok bytes ∧
      (∃ pk' r, (PublicKey.ofBytes bytes : Loading (PublicKey Ristretto.group)).outcome .empty =
        (.ok pk', r)) ∧
      (ElGamal.generateWith .ristretto255 1000 4).outcome (Entropy.ofBytes [1]) =
        (.ok (sk, pk), e) ∧
      (PublicKey.elgamal pk).toBytes = .ok bytes' ∧
      ∃ error r, (SecretKey.ofBytes (fun n => decide n.Prime) bytes' :
        Loading (SecretKey Ristretto.group)).outcome .empty = (.error error, r) := by
  have hwidth (a : Ristretto.group.Point) : (Ristretto.group.encode a).length = width :=
    Bytes.length_ofNat _ _
  obtain ⟨hsecret, -, hpublic⟩ := reads_as_other_kind_iff exactTest_decide hwidth .empty
  obtain ⟨s, hs, hbytes, hreads⟩ := SecretKey.exists_ou_mersenne_seven
  obtain ⟨sk, hsk⟩ : ∃ sk : ElGamal.SecretKey Ristretto.group,
      ElGamal.SecretKey.ofParts .ristretto255 1 1000 4 = .ok sk :=
    ElGamal.SecretKey.exists_ofParts (by decide +kernel) (by decide)
  obtain ⟨-, hx, -⟩ := ElGamal.SecretKey.ofParts_eq_ok hsk
  obtain ⟨pk, hpk⟩ : ∃ pk : ElGamal.PublicKey Ristretto.group, sk.publicKey = .ok pk := by
    have hne : Ristretto.group.same (Ristretto.group.mulBase sk.x) Ristretto.group.zero = false := by
      rw [hx]
      decide +kernel
    obtain ⟨pk, hpk, -⟩ := ElGamal.PublicKey.exists_ofParts hne (ElGamal.checkTable_eq_ok.mp sk.valid).1
    exact ⟨pk, hpk⟩
  have hscalar : Ristretto.group.scalarOfBytes ((Entropy.ofBytes [1]).next 64) = 1 := by
    decide +kernel
  have hdrawn := ElGamal.outcome_generateWith_of_scalar hscalar one_ne_zero hsk hpk
  obtain ⟨payload, hpayload⟩ := ElGamal.PublicKey.exists_toBytes (hwidth pk.y)
  have hbytes' : (PublicKey.elgamal pk).toBytes = .ok (Schema.elgamal.mark payload) :=
    Schema.mark_eq_ok.mpr ⟨payload, hpayload, rfl⟩
  exact ⟨s, sk, pk, _, _, _, hs, hbytes, (hsecret _ _ (.ou hs) hbytes).mpr ⟨s, rfl, hreads⟩, hdrawn,
    hbytes', hpublic _ _ _ (.elgamal hdrawn) hbytes'⟩

theorem secretKey_reads_as_public_mersenne_seven :
    ∃ s bytes,
      OkamotoUchiyama.SecretKey.ofParts (fun n => decide n.Prime) (mersenne 521) 7
        (mersenne 521 - 1) = .ok s ∧
      (SecretKey.ou s : SecretKey Ristretto.group).toBytes = .ok bytes ∧
      bytes = Schema.ou.mark (Wire.putNaturals [mersenne 521, 7, mersenne 521 - 1]) ∧
      ∀ r, ∃ pk r', (PublicKey.ofBytes bytes : Loading (PublicKey Ristretto.group)).outcome r =
        (.ok pk, r') := by
  obtain ⟨s, hs, hbytes, hreads⟩ := SecretKey.exists_ou_mersenne_seven
  refine ⟨s, _, hs, hbytes, rfl, fun r => ?_⟩
  exact (SecretKey.reads_as_public_iff exactTest_decide (.ou hs) hbytes r).mpr ⟨s, rfl, hreads⟩

end Homomorphic
