import Homomorphic.Curve.Ristretto
import Homomorphic.Key
import Homomorphic.Proofs.ElGamal.Encoding
import Homomorphic.Proofs.OkamotoUchiyama.Encoding
import Homomorphic.Proofs.Paillier.Encoding

namespace Homomorphic

open PointGroup

variable {E : PointGroup} {bytes : Bytes}

theorem Schema.split_mark (schema : Schema) (payload : Bytes) :
    split (schema.mark payload) = .ok (schema, payload) := by
  rw [mark, split, ofTag?_tag]

theorem Schema.split_eq_ok {schema : Schema} {bytes payload : Bytes} :
    split bytes = .ok (schema, payload) ↔ bytes = schema.mark payload := by
  constructor
  · intro h
    cases bytes with
    | nil => cases h
    | cons byte rest =>
      rw [split, ofTag?] at h
      split_ifs at h <;> cases h <;> subst byte <;> rfl
  · rintro rfl
    exact split_mark schema payload

theorem Schema.outcome_split_mark {α : Type} (schema : Schema) (payload : Bytes)
    (f : Schema × Bytes → Loading α) (r : Registry) :
    ((liftM (split (schema.mark payload)) : Loading (Schema × Bytes)) >>= f).outcome r =
      (f (schema, payload)).outcome r :=
  Loading.outcome_lift_bind_of_ok f (split_mark schema payload) r

theorem Schema.mark_eq_ok {schema : Schema} {x : Except Error Bytes} :
    (x >>= fun payload => pure (schema.mark payload)) = .ok bytes ↔
      ∃ payload, x = .ok payload ∧ schema.mark payload = bytes := by
  rw [bind_eq_ok]
  refine exists_congr fun payload => and_congr_right fun _ => ?_
  exact ⟨Except.ok.inj, congrArg Except.ok⟩

theorem Schema.mark_inj {schema schema' : Schema} {a b : Bytes} :
    schema.mark a = schema'.mark b ↔ schema = schema' ∧ a = b := by
  constructor
  · intro h
    have hsplit := congrArg split h
    rw [split_mark, split_mark] at hsplit
    exact Prod.mk.inj (Except.ok.inj hsplit)
  · rintro ⟨rfl, rfl⟩
    rfl

namespace PublicKey

def Made : PublicKey E → Prop
  | paillier _ | ou _ => True
  | elgamal pk => E.Made pk.y

def bound : PublicKey E → ℕ
  | paillier pk => pk.bound
  | ou pk => pk.bound
  | elgamal pk => pk.maxPlaintext.toNat

def registered (r : Registry) : PublicKey E → Registry
  | paillier _ | ou _ => r
  | elgamal pk => r.enable pk.curve

variable {pk pk' : PublicKey E}

theorem bound_eq_of_beq (h : (pk == pk') = true) : pk.bound = pk'.bound := by
  cases pk <;> cases pk' <;> try cases h
  case paillier.paillier a b => rw [Paillier.PublicKey.beq_iff.mp h]
  case ou.ou a b => rw [OkamotoUchiyama.PublicKey.beq_iff.mp h]
  case elgamal.elgamal a b => exact congrArg UInt64.toNat (ElGamal.PublicKey.beq_iff.mp h).2.2

theorem params_eq_of_beq (codec : E.Encodes) (hmade : pk.Made) (hmade' : pk'.Made)
    (h : (pk == pk') = true) : pk.params = pk'.params := by
  cases pk <;> cases pk' <;> try cases h
  case paillier.paillier a b => rw [Paillier.PublicKey.beq_iff.mp h]
  case ou.ou a b => rw [OkamotoUchiyama.PublicKey.beq_iff.mp h]
  case elgamal.elgamal a b =>
    obtain ⟨hcurve, hy, hbound⟩ := ElGamal.PublicKey.beq_iff.mp h
    rw [params, params, ElGamal.PublicKey.params, ElGamal.PublicKey.params, hcurve, hbound,
      codec.encode_of_same hmade hmade' hy]

theorem exists_outcome_ofBytes (codec : E.Encodes) (hmade : pk.Made) (h : pk.toBytes = .ok bytes)
    (r : Registry) :
    ∃ pk', (ofBytes bytes).outcome r = (.ok pk', pk.registered r) ∧ (pk' == pk) = true ∧
      pk'.Made := by
  cases pk with
  | paillier pk =>
    obtain ⟨payload, hpayload, rfl⟩ := Schema.mark_eq_ok.mp h
    have hread := Paillier.PublicKey.ofBytes_of_toBytes hpayload
    refine ⟨paillier pk, ?_, Paillier.PublicKey.beq_iff.mpr rfl, trivial⟩
    rw [ofBytes, Schema.outcome_split_mark]
    exact Loading.outcome_lift_bind_of_ok _ hread r
  | ou pk =>
    obtain ⟨payload, hpayload, rfl⟩ := Schema.mark_eq_ok.mp h
    have hread := OkamotoUchiyama.PublicKey.ofBytes_of_toBytes hpayload
    refine ⟨ou pk, ?_, OkamotoUchiyama.PublicKey.beq_iff.mpr rfl, trivial⟩
    rw [ofBytes, Schema.outcome_split_mark]
    exact Loading.outcome_lift_bind_of_ok _ hread r
  | elgamal pk =>
    obtain ⟨payload, hpayload, rfl⟩ := Schema.mark_eq_ok.mp h
    obtain ⟨pk', hread, heq, hmade'⟩ :=
      ElGamal.PublicKey.exists_outcome_ofBytes codec hmade hpayload r
    refine ⟨elgamal pk', ?_, heq, hmade'⟩
    rw [ofBytes, Schema.outcome_split_mark]
    exact Loading.outcome_bind_of_ok _ hread

theorem toBytes_eq_iff (codec : E.Encodes) (hmade : pk.Made) (hmade' : pk'.Made) {bytes' : Bytes}
    (h : pk.toBytes = .ok bytes) (h' : pk'.toBytes = .ok bytes') :
    bytes = bytes' ↔ (pk == pk') = true := by
  cases pk <;> cases pk' <;> obtain ⟨x, hx, rfl⟩ := Schema.mark_eq_ok.mp h <;>
    obtain ⟨y, hy, rfl⟩ := Schema.mark_eq_ok.mp h' <;> rw [Schema.mark_inj]
  case paillier.paillier a b =>
    have hread := eq_iff_of_decode _ Paillier.PublicKey.ofBytes_of_toBytes hx hy
    exact (and_iff_right rfl).trans (hread.trans Paillier.PublicKey.beq_iff.symm)
  case ou.ou a b =>
    have hread := eq_iff_of_decode _ OkamotoUchiyama.PublicKey.ofBytes_of_toBytes hx hy
    exact (and_iff_right rfl).trans (hread.trans OkamotoUchiyama.PublicKey.beq_iff.symm)
  case elgamal.elgamal a b =>
    have hread := ElGamal.PublicKey.toBytes_eq_iff codec hmade hmade' hx hy
    exact (and_iff_right rfl).trans hread
  all_goals exact iff_of_false (fun heq => by cases heq.1) (fun heq => by cases heq)

end PublicKey

namespace SecretKey

inductive Accepted (test : ℕ → Bool) : SecretKey E → Prop
  | paillier {p q lambda mu : ℕ} {sk : Paillier.SecretKey}
    (h : Paillier.SecretKey.ofParts test p q lambda mu = .ok sk) : Accepted test (.paillier sk)
  | ou {p q gpInv : ℕ} {sk : OkamotoUchiyama.SecretKey}
    (h : OkamotoUchiyama.SecretKey.ofParts test p q gpInv = .ok sk) : Accepted test (.ou sk)
  | elgamal {curve : NamedCurve} {x : ℕ} {bound : UInt64} {tableBits : UInt32}
    {sk : ElGamal.SecretKey E} (h : ElGamal.SecretKey.ofParts curve x bound tableBits = .ok sk) :
    Accepted test (.elgamal sk)

def registered (r : Registry) : SecretKey E → Registry
  | paillier _ | ou _ => r
  | elgamal sk => r.enable sk.curve

theorem outcome_ofBytes_of_toBytes (horder : E.order ≤ 256 ^ width) {test : ℕ → Bool}
    {sk : SecretKey E} (hsk : sk.Accepted test) (h : sk.toBytes = .ok bytes) (r : Registry) :
    (ofBytes test bytes).outcome r = (.ok sk, sk.registered r) := by
  cases hsk with
  | paillier hparts =>
    obtain ⟨payload, hpayload, rfl⟩ := Schema.mark_eq_ok.mp h
    have hread := Paillier.SecretKey.ofBytes_of_toBytes hparts hpayload
    rw [ofBytes, Schema.outcome_split_mark]
    exact Loading.outcome_lift_bind_of_ok _ hread r
  | ou hparts =>
    obtain ⟨payload, hpayload, rfl⟩ := Schema.mark_eq_ok.mp h
    have hread := OkamotoUchiyama.SecretKey.ofBytes_of_toBytes hparts hpayload
    rw [ofBytes, Schema.outcome_split_mark]
    exact Loading.outcome_lift_bind_of_ok _ hread r
  | elgamal =>
    obtain ⟨payload, hpayload, rfl⟩ := Schema.mark_eq_ok.mp h
    have hread := ElGamal.SecretKey.outcome_ofBytes_of_toBytes horder hpayload r
    rw [ofBytes, Schema.outcome_split_mark]
    exact Loading.outcome_bind_of_ok _ hread

end SecretKey

namespace Ciphertext

def Made : Ciphertext E → Prop
  | paillier _ | ou _ => True
  | elgamal c => c.Made

def CurveIn (r : Registry) : Ciphertext E → Prop
  | paillier _ | ou _ => True
  | elgamal c => r.contains c.curve.id = true

def registered (r : Registry) : Ciphertext E → Registry
  | paillier _ | ou _ => r
  | elgamal c => r.enable c.curve

variable {c c' : Ciphertext E}

theorem exists_outcome_ofBytes (codec : E.Encodes) (hmade : c.Made) (h : c.toBytes = .ok bytes)
    {r : Registry} (hr : c.CurveIn r) :
    ∃ c', (ofBytes bytes).outcome r = (.ok c', r) ∧ (c' == c) = true ∧ c'.Made := by
  cases c with
  | paillier c =>
    obtain ⟨payload, hpayload, rfl⟩ := Schema.mark_eq_ok.mp h
    have hread := Paillier.Ciphertext.ofBytes_of_toBytes hpayload
    refine ⟨paillier c, ?_, beq_self_eq_true c, trivial⟩
    rw [ofBytes, Schema.outcome_split_mark]
    exact Loading.outcome_lift_bind_of_ok _ hread r
  | ou c =>
    obtain ⟨payload, hpayload, rfl⟩ := Schema.mark_eq_ok.mp h
    have hread := OkamotoUchiyama.Ciphertext.ofBytes_of_toBytes hpayload
    refine ⟨ou c, ?_, beq_self_eq_true c, trivial⟩
    rw [ofBytes, Schema.outcome_split_mark]
    exact Loading.outcome_lift_bind_of_ok _ hread r
  | elgamal c =>
    obtain ⟨payload, hpayload, rfl⟩ := Schema.mark_eq_ok.mp h
    obtain ⟨c', hread, heq, hmade'⟩ :=
      ElGamal.Ciphertext.exists_outcome_ofBytes_compact codec hmade hpayload hr
    refine ⟨elgamal c', ?_, heq, hmade'⟩
    rw [ofBytes, Schema.outcome_split_mark]
    exact Loading.outcome_bind_of_ok _ hread

theorem exists_outcome_ofBytes_named (codec : E.Encodes) (hmade : c.Made)
    (h : c.toNamedBytes = .ok bytes) (r : Registry) :
    ∃ c', (ofBytes bytes).outcome r = (.ok c', c.registered r) ∧ (c' == c) = true ∧ c'.Made := by
  cases c with
  | paillier c => exact exists_outcome_ofBytes (c := paillier c) codec trivial h trivial
  | ou c => exact exists_outcome_ofBytes (c := ou c) codec trivial h trivial
  | elgamal c =>
    obtain ⟨payload, hpayload, rfl⟩ := Schema.mark_eq_ok.mp h
    obtain ⟨c', hread, heq, hmade'⟩ :=
      ElGamal.Ciphertext.exists_outcome_ofBytes_named codec hmade hpayload r
    refine ⟨elgamal c', ?_, heq, hmade'⟩
    rw [ofBytes, Schema.outcome_split_mark]
    exact Loading.outcome_bind_of_ok _ hread

theorem exists_encodings (codec : E.Encodes) (hmade : c.Made) (h : c.schema = .elgamal) :
    (∃ bytes, c.toBytes = .ok bytes) ∧ ∃ bytes, c.toNamedBytes = .ok bytes := by
  cases c with
  | paillier | ou => cases h
  | elgamal c =>
    obtain ⟨payload, hcompact⟩ := ElGamal.Ciphertext.exists_toBytes codec hmade
    obtain ⟨payload', hnamed⟩ := ElGamal.Ciphertext.exists_toNamedBytes codec hmade
    exact ⟨⟨_, Schema.mark_eq_ok.mpr ⟨payload, hcompact, rfl⟩⟩,
      _, Schema.mark_eq_ok.mpr ⟨payload', hnamed, rfl⟩⟩

theorem toBytes_eq_iff (codec : E.Encodes) (hmade : c.Made) (hmade' : c'.Made) {bytes' : Bytes}
    (h : c.toBytes = .ok bytes) (h' : c'.toBytes = .ok bytes') :
    bytes = bytes' ↔ (c == c') = true := by
  cases c <;> cases c' <;> obtain ⟨x, hx, rfl⟩ := Schema.mark_eq_ok.mp h <;>
    obtain ⟨y, hy, rfl⟩ := Schema.mark_eq_ok.mp h' <;> rw [Schema.mark_inj]
  case paillier.paillier a b =>
    have hread := eq_iff_of_decode _ Paillier.Ciphertext.ofBytes_of_toBytes hx hy
    exact (and_iff_right rfl).trans (hread.trans beq_iff_eq.symm)
  case ou.ou a b =>
    have hread := eq_iff_of_decode _ OkamotoUchiyama.Ciphertext.ofBytes_of_toBytes hx hy
    exact (and_iff_right rfl).trans (hread.trans beq_iff_eq.symm)
  case elgamal.elgamal a b =>
    have hread := ElGamal.Ciphertext.toBytes_eq_iff codec hmade hmade' hx hy
    exact (and_iff_right rfl).trans hread
  all_goals exact iff_of_false (fun heq => by cases heq.1) (fun heq => by cases heq)

end Ciphertext

theorem encoding_lossless (codec : E.Encodes) (test : ℕ → Bool) (r : Registry) :
    (∀ (pk : PublicKey E) (bytes : Bytes), pk.Made → pk.toBytes = .ok bytes →
      ∃ pk', (PublicKey.ofBytes bytes).outcome r = (.ok pk', pk.registered r) ∧
        (pk' == pk) = true ∧ pk'.bound = pk.bound ∧ pk'.params = pk.params) ∧
    (∀ (sk : SecretKey E) (bytes : Bytes), sk.Accepted test → sk.toBytes = .ok bytes →
      (SecretKey.ofBytes test bytes).outcome r = (.ok sk, sk.registered r)) ∧
    (∀ (c : Ciphertext E) (bytes : Bytes), c.Made → c.toNamedBytes = .ok bytes →
      ∃ c', (Ciphertext.ofBytes bytes).outcome r = (.ok c', c.registered r) ∧ (c' == c) = true) ∧
    (∀ (c : Ciphertext E) (bytes : Bytes), c.Made → c.CurveIn r → c.toBytes = .ok bytes →
      ∃ c', (Ciphertext.ofBytes bytes).outcome r = (.ok c', r) ∧ (c' == c) = true) ∧
    (∀ (a b : PublicKey E) (x y : Bytes), a.Made → b.Made → a.toBytes = .ok x → b.toBytes = .ok y →
      ((a == b) = true ↔ x = y)) ∧
    ∀ (a b : Ciphertext E) (x y : Bytes), a.Made → b.Made → a.toBytes = .ok x → b.toBytes = .ok y →
      ((a == b) = true ↔ x = y) := by
  refine ⟨?_, ?_, ?_, ?_, ?_, ?_⟩
  · intro pk bytes hmade h
    obtain ⟨pk', hread, heq, hmade'⟩ := PublicKey.exists_outcome_ofBytes codec hmade h r
    exact ⟨pk', hread, heq, PublicKey.bound_eq_of_beq heq,
      PublicKey.params_eq_of_beq codec hmade' hmade heq⟩
  · intro sk bytes hsk h
    exact SecretKey.outcome_ofBytes_of_toBytes codec.order_le hsk h r
  · intro c bytes hmade h
    obtain ⟨c', hread, heq, -⟩ := Ciphertext.exists_outcome_ofBytes_named codec hmade h r
    exact ⟨c', hread, heq⟩
  · intro c bytes hmade hr h
    obtain ⟨c', hread, heq, -⟩ := Ciphertext.exists_outcome_ofBytes codec hmade h hr
    exact ⟨c', hread, heq⟩
  · intro a b x y ha hb hx hy
    exact (PublicKey.toBytes_eq_iff codec ha hb hx hy).symm
  · intro a b x y ha hb hx hy
    exact (Ciphertext.toBytes_eq_iff codec ha hb hx hy).symm

theorem encoding_lossless_residues :
    ∃ (h : 1 < Ristretto.order) (sk : ElGamal.SecretKey (residues Ristretto.order h))
      (pk : ElGamal.PublicKey (residues Ristretto.order h)) (bytes bytes' : Bytes),
      (residues Ristretto.order h).Encodes ∧
      ElGamal.SecretKey.ofParts .ristretto255 5 1000 4 = .ok sk ∧ sk.publicKey = .ok pk ∧
      (SecretKey.elgamal sk).toBytes = .ok bytes ∧ (PublicKey.elgamal pk).toBytes = .ok bytes' ∧
      (SecretKey.ofBytes (fun _ => false) bytes).outcome .empty =
        (.ok (.elgamal sk), ⟨[.ristretto255]⟩) ∧
      ∃ pk' r', (PublicKey.ofBytes bytes').outcome .empty = (.ok pk', r') ∧
        (pk' == .elgamal pk) = true ∧ pk'.bound = 1000 := by
  have h : 1 < Ristretto.order := Ristretto.group.one_lt_order
  have hwidth : Ristretto.order ≤ 256 ^ width := by decide +kernel
  have codec := encodes_residues h hwidth
  have hpos : 0 < 5 % (residues Ristretto.order h).order := by
    change 0 < 5 % Ristretto.order
    decide +kernel
  obtain ⟨sk, pk, hsk, hpk, hcurve, -, hy, -, hbound⟩ :=
    ElGamal.SecretKey.exists_keyPair (represents_residues h hwidth) .ristretto255 hpos
      (by decide : ElGamal.checkTable 1000 4 = .ok ())
  have hmade : (residues Ristretto.order h).Made pk.y := hy ▸ .mulBase sk.x
  obtain ⟨payload, hpayload⟩ := sk.exists_toBytes
  obtain ⟨payload', hpayload'⟩ := ElGamal.PublicKey.exists_toBytes (codec.length_encode hmade)
  have hbytes : (SecretKey.elgamal sk).toBytes = .ok (Schema.elgamal.mark payload) :=
    Schema.mark_eq_ok.mpr ⟨payload, hpayload, rfl⟩
  have hbytes' : (PublicKey.elgamal pk).toBytes = .ok (Schema.elgamal.mark payload') :=
    Schema.mark_eq_ok.mpr ⟨payload', hpayload', rfl⟩
  obtain ⟨hpublic, hsecret, -⟩ := encoding_lossless codec (fun _ => false) .empty
  obtain ⟨pk', hread, heq, hsame, -⟩ := hpublic (.elgamal pk) _ hmade hbytes'
  have hread' := hsecret _ _ (.elgamal hsk) hbytes
  rw [SecretKey.registered, hcurve] at hread'
  refine ⟨h, sk, pk, _, _, codec, hsk, hpk, hbytes, hbytes', hread', pk', _, hread, heq, ?_⟩
  rw [hsame, PublicKey.bound, hbound]
  rfl

end Homomorphic
